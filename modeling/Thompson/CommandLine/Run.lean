import Thompson.Automaton.Listing
import Thompson.Automaton.Simulation
import Thompson.CommandLine.Arguments
import Thompson.Diagnostic
import Thompson.JsonTree
import Thompson.Pattern.Rules
import Thompson.Text.Quoted

/-!
What a run answers. Verdicts on inputs are printed as text with one line for each, or as JSON.
-/
namespace Thompson

structure Verdict where
  input : String
  accepted : Bool
  deriving DecidableEq

def Automaton.verdicts (A : Automaton) (inputs : List String) : List Verdict :=
  inputs.map fun input => ⟨input, A.accepts input.toList⟩

/-- The input is quoted, so that an empty one is seen and none breaks the line. -/
def Verdict.line (v : Verdict) : String :=
  (if v.accepted then "accept " else "reject ") ++ Text.quoted v.input ++ "\n"

def verdictText (vs : List Verdict) : String := String.join (vs.map Verdict.line)

def Verdict.json (v : Verdict) : JsonTree :=
  .object [("input", .string v.input), ("accepted", .bool v.accepted)]

def verdictJson (vs : List Verdict) : JsonTree := .array (vs.map Verdict.json)

def Verdict.ofJson? : JsonTree → Option Verdict
  | .object [("input", .string input), ("accepted", .bool accepted)] => some ⟨input, accepted⟩
  | _ => none

@[simp] theorem Verdict.ofJson?_json (v : Verdict) : Verdict.ofJson? v.json = some v := rfl

inductive ReadFailure where
  | notFound
  | notDirectory
  | isDirectory
  | nameTooLong
  | notText
  | other (text : String)
  deriving DecidableEq

def ReadFailure.text : ReadFailure → String
  | .notFound => "No such file or directory (os error 2)"
  | .notDirectory => "Not a directory (os error 20)"
  | .isDirectory => "Is a directory (os error 21)"
  | .nameTooLong => "File name too long (os error 36)"
  | .notText => "stream did not contain valid UTF-8"
  | .other text => text

/-- What can be read, whether both output streams are terminals, and what is written about a
    program that stops before its end. -/
structure Surroundings where
  stdin : ByteArray
  file : String → Except ReadFailure ByteArray
  terminal : Bool := false
  notice : String := "Formatting argument out of range\n"

inductive LoadError where
  | missing
  | stdin (failure : ReadFailure)
  | file (path : String) (failure : ReadFailure)
  deriving DecidableEq

def LoadError.message : LoadError → String
  | .missing => "pattern is required: use a positional argument or -f/--file"
  | .stdin failure => "failed to read stdin: " ++ failure.text
  | .file path failure => "failed to read '" ++ path ++ "': " ++ failure.text

/-- The text of a pattern, and the name that diagnostics give to where it came from. -/
structure LoadedPattern where
  source : String
  path : Option String
  deriving DecidableEq

def decodeText (bytes : ByteArray) : Except ReadFailure String :=
  match String.fromUTF8? bytes with
  | some text => .ok text
  | none => .error .notText

/-- Line breaks at the end of a file are not part of its pattern. -/
def stripLineEnding (text : String) : String :=
  String.ofList (text.toList.reverse.dropWhile fun c => c = '\n' ∨ c = '\x0d').reverse

/-- A file comes before a pattern given in place; its name `-` stands for the standard input. -/
def Request.load (r : Request) (w : Surroundings) : Except LoadError LoadedPattern :=
  match r.file, r.pattern with
  | some "-", _ =>
    match decodeText w.stdin with
    | .ok text => .ok ⟨stripLineEnding text, some "<stdin>"⟩
    | .error failure => .error (.stdin failure)
  | some path, _ =>
    match w.file path >>= decodeText with
    | .ok text => .ok ⟨stripLineEnding text, some path⟩
    | .error failure => .error (.file path failure)
  | none, some text => .ok ⟨text, none⟩
  | none, none => .error .missing

def Color.shows (terminal : Bool) : Color → Bool
  | .auto => terminal
  | .always => true
  | .never => false

structure Outcome where
  code : Nat
  stdout : String
  stderr : String
  deriving DecidableEq

def Outcome.success (stdout : String) : Outcome := ⟨0, stdout, ""⟩

def Outcome.failure (stdout message : String) : Outcome := ⟨1, stdout, message ++ "\n"⟩

/-- The program stopped before it had printed anything. -/
def Outcome.stopped (w : Surroundings) : Outcome := ⟨101, "", w.notice⟩

def Automaton.dump (A : Automaton) : Format → String
  | .text => A.listing true
  | .json => A.json.text ++ "\n"

def reportText (verdicts : List Verdict) : Format → String
  | .text => verdictText verdicts
  | .json => (verdictJson verdicts).text ++ "\n"

/-- Inputs given to an automaton. One that is not accepted makes the run fail. -/
def Automaton.exec (A : Automaton) (format : Format) (inputs : List String) : Outcome :=
  let verdicts := A.verdicts inputs
  ⟨if verdicts.all Verdict.accepted then 0 else 1, reportText verdicts format, ""⟩

namespace Request

def diagnostic (r : Request) (w : Surroundings) (p : LoadedPattern) (e : PatternError) : String :=
  e.render (some ⟨p.source, p.path, r.color.shows w.terminal⟩)

/-- Compiles a pattern with nobody listening, and goes on with the automaton. -/
def withAutomaton (r : Request) (w : Surroundings) (p : LoadedPattern) (go : Automaton → Outcome) :
    Outcome :=
  match (compileFor .silent r.limit p.source ()).1 with
  | .error e => .failure "" (r.diagnostic w p e)
  | .ok A => go A

/-- Compiles a pattern and prints the lines of its trace before anything else. -/
def traced (r : Request) (w : Surroundings) (p : LoadedPattern) (verbosity : Verbosity) : Outcome :=
  match compileTraced verbosity r.limit p.source with
  | none => .stopped w
  | some (.error e, lines) => .failure (traceText lines) (r.diagnostic w p e)
  | some (.ok A, lines) => .success (traceText lines ++ ("---\n" ++ A.listing true))

def runOn (r : Request) (w : Surroundings) (p : LoadedPattern) : Outcome :=
  match r.task with
  | .check => r.withAutomaton w p fun _ => .success ""
  | .dump format => r.withAutomaton w p fun A => .success (A.dump format)
  | .exec format inputs => r.withAutomaton w p fun A => A.exec format inputs
  | .trace verbosity => r.traced w p verbosity

end Request

def Task.lacksInputs : Task → Bool
  | .exec _ inputs => inputs.isEmpty
  | _ => false

/-- Inputs are asked for before the pattern is. -/
def Request.run (r : Request) (w : Surroundings) : Outcome :=
  if r.task.lacksInputs then
    .failure "" "error: at least one input is required"
  else match r.load w with
    | .error e => .failure "" ("error: " ++ e.message)
    | .ok p => r.runOn w p

end Thompson
