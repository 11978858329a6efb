import Thompson.Pattern.Compile
import Thompson.Text.Basic
import Thompson.Trace

/-!
What a command line asks for, and why one is refused.
-/
namespace Thompson

/-- When diagnostics are coloured; `auto` leaves it to the terminal. -/
inductive Color where
  | auto
  | always
  | never
  deriving DecidableEq

inductive Format where
  | text
  | json
  deriving DecidableEq

inductive Task where
  | check
  | dump (format : Format)
  | exec (format : Format) (inputs : List String)
  | trace (verbosity : Verbosity)
  deriving DecidableEq

structure Request where
  task : Task
  pattern : Option String
  file : Option String
  limit : Option Nat
  color : Color
  deriving DecidableEq

inductive Refusal where
  | help
  | missingCommand
  | unknownCommand
  | unknownArgument
  | invalidValue
  | invalidNumber
  | repeated
  | needlessValue
  deriving DecidableEq

/-- Asking for help is no mistake. -/
def Refusal.exitCode : Refusal → Nat
  | .help => 0
  | _ => 2

def Refusal.message : Refusal → String
  | .help => "usage: check|dump|exec|trace [PATTERN] [-f FILE] [--format text|json] " ++
      "[--max-depth N] [--color auto|always|never] [-v] [INPUT]..."
  | .missingCommand => "error: a command is required: check, dump, exec or trace"
  | .unknownCommand => "error: unknown command"
  | .unknownArgument => "error: unexpected argument"
  | .invalidValue => "error: invalid or missing value"
  | .invalidNumber => "error: invalid number"
  | .repeated => "error: argument given more than once"
  | .needlessValue => "error: unexpected value"

/-!
From the words of a command line to a request. Words are read from left to right.
A setting may wait for its value in the next word; it is settled, that is checked
and stored, when the next option begins, when a word becomes an operand, or at the
end. A mistake in a waiting setting therefore shows only then, and not at all when
an unknown option comes first.
-/

inductive Setting where
  | file
  | format
  | maxDepth
  | color
  deriving DecidableEq

inductive OptionName where
  | setting (s : Setting)
  | verbose
  | help

def OptionName.ofLong : String → Option OptionName
  | "file" => some (.setting .file)
  | "format" => some (.setting .format)
  | "max-depth" => some (.setting .maxDepth)
  | "color" => some (.setting .color)
  | "verbose" => some .verbose
  | "help" => some .help
  | _ => none

def OptionName.ofShort : Char → Option OptionName
  | 'f' => some (.setting .file)
  | 'v' => some .verbose
  | 'h' => some .help
  | _ => none

/-- How a word looks: two dashes alone, a long option with or without a value, short
    options in a row, or anything else, a single dash included. -/
inductive Shape where
  | dashes
  | long (name : String) (value : Option String)
  | short (letters : List Char)
  | operand (text : String)

/-- A value begins behind the first equals sign. -/
def longShape (cs : List Char) : Shape :=
  let name := cs.takeWhile (· ≠ '=')
  match cs.dropWhile (· ≠ '=') with
  | [] => .long (String.ofList name) none
  | _ :: value => .long (String.ofList name) (some (String.ofList value))

def Shape.ofWord (word : String) : Shape :=
  match word.toList with
  | ['-', '-'] => .dashes
  | '-' :: '-' :: cs => longShape cs
  | '-' :: c :: cs => .short (c :: cs)
  | _ => .operand word

def maxLimit : Nat := 0xffffffff

/-- A number with an optional sign; a minus is good for zero only. -/
def limitNumber? (text : String) : Option Nat :=
  match text.toList with
  | '+' :: cs => (Text.decimal? cs).filter (· ≤ maxLimit)
  | '-' :: cs => (Text.decimal? cs).filter (· = 0)
  | cs => (Text.decimal? cs).filter (· ≤ maxLimit)

def Format.ofText? : String → Option Format
  | "text" => some .text
  | "json" => some .json
  | _ => none

def Color.ofText? : String → Option Color
  | "auto" => some .auto
  | "always" => some .always
  | "never" => some .never
  | _ => none

/-- What the words so far have set, and the setting that is not settled yet. -/
structure Given where
  pattern : Option String := none
  inputs : List String := []
  file : Option String := none
  format : Option Format := none
  limit : Option Nat := none
  color : Option Color := none
  verbose : Bool := false
  waiting : Option (Setting × Option String) := none

namespace Given

def once {α : Type} (old : Option α) (new : Except Refusal α) : Except Refusal (Option α) :=
  if old.isSome then .error .repeated else new.map some

def store (g : Given) (s : Setting) (value : String) : Except Refusal Given :=
  match s with
  | .file => do
    let file ← once g.file (if value.isEmpty then .error .invalidValue else .ok value)
    .ok { g with file }
  | .format => do
    let format ← once g.format ((Format.ofText? value).elim (.error .invalidValue) .ok)
    .ok { g with format }
  | .maxDepth => do
    let limit ← once g.limit ((limitNumber? value).elim (.error .invalidNumber) .ok)
    .ok { g with limit }
  | .color => do
    let color ← once g.color ((Color.ofText? value).elim (.error .invalidValue) .ok)
    .ok { g with color }

def settle (g : Given) : Except Refusal Given :=
  match g.waiting with
  | none => .ok g
  | some (_, none) => .error .invalidValue
  | some (s, some value) => { g with waiting := none }.store s value

def setVerbose (g : Given) : Except Refusal Given := do
  let g ← g.settle
  if g.verbose then .error .repeated else .ok { g with verbose := true }

/-- A word that is no option: the pattern, then the inputs if the command takes any. -/
def operand (g : Given) (takesInputs : Bool) (word : String) : Except Refusal Given :=
  match g.pattern, takesInputs with
  | none, _ => do .ok { ← g.settle with pattern := some word }
  | some _, true => do
    let g ← g.settle
    .ok { g with inputs := g.inputs ++ [word] }
  | some _, false => .error .unknownArgument

/-- Short options in a row. Help is given as soon as it is asked for, whatever follows in
    the row. A setting takes the rest of the row as its value, less one equals sign, or
    waits for the next word. -/
def short (g : Given) : List Char → Except Refusal Given
  | [] => .ok g
  | c :: cs =>
    match OptionName.ofShort c with
    | none => .error .unknownArgument
    | some .verbose => do (← g.setVerbose).short cs
    | some .help => do
      let _ ← g.settle
      .error .help
    | some (.setting s) => do
      let g ← g.settle
      match cs with
      | [] => .ok { g with waiting := some (s, none) }
      | '=' :: value => g.store s (String.ofList value)
      | value => g.store s (String.ofList value)

def long (g : Given) (name : String) (value : Option String) : Except Refusal Given :=
  match OptionName.ofLong name, value with
  | none, _ => .error .unknownArgument
  | some (.setting s), none => do .ok { ← g.settle with waiting := some (s, none) }
  | some (.setting s), some value => do (← g.settle).store s value
  | some _, some _ => .error .needlessValue
  | some .verbose, none => g.setVerbose
  | some .help, none => do
    let _ ← g.settle
    .error .help

/-- After two dashes every word is an operand. -/
def words (g : Given) (takesInputs operandsOnly : Bool) : List String → Except Refusal Given
  | [] => g.settle
  | word :: rest =>
    if operandsOnly then do words (← g.operand takesInputs word) takesInputs true rest
    else match Shape.ofWord word, g.waiting with
      | .dashes, _ => words g takesInputs true rest
      | .long name value, _ => do words (← g.long name value) takesInputs false rest
      | .short letters, _ => do words (← g.short letters) takesInputs false rest
      | .operand text, some (s, none) =>
        words { g with waiting := some (s, some text) } takesInputs false rest
      | .operand text, _ => do words (← g.operand takesInputs text) takesInputs false rest

/-- No limit given means the usual one, and zero means none. -/
def limitOf : Option Nat → Option Nat
  | none => defaultLimit
  | some 0 => none
  | some n => some n

def request (g : Given) (task : Task) : Request :=
  ⟨task, g.pattern, g.file, limitOf g.limit, g.color.getD .auto⟩

/-- With a file there is no pattern in place, and what stands there is the first input. -/
def execRequest (g : Given) : Request :=
  let format := g.format.getD .text
  if g.file.isSome then
    { g with pattern := none }.request (.exec format (g.pattern.toList ++ g.inputs))
  else g.request (.exec format g.inputs)

end Given

def readArguments : List String → Except Refusal Request
  | [] => .error .missingCommand
  | word :: rest =>
    match Shape.ofWord word with
    | .dashes => match rest with
      | [] => .error .missingCommand
      | next :: _ =>
        if next ∈ ["check", "dump", "exec", "trace", "help"] then .error .unknownArgument
        else .error .unknownCommand
    | .long "help" none => .error .help
    | .long "help" (some _) => .error .needlessValue
    | .long _ _ => .error .unknownArgument
    | .short ('h' :: _) => .error .help
    | .short _ => .error .unknownArgument
    | .operand "check" => do .ok ((← Given.words {} false false rest).request .check)
    | .operand "dump" => do
      let g ← Given.words {} false false rest
      .ok (g.request (.dump (g.format.getD .text)))
    | .operand "exec" => do .ok (← Given.words {} true false rest).execRequest
    | .operand "trace" => do
      let g ← Given.words {} false false rest
      .ok (g.request (.trace (if g.verbose then .verbose else .default)))
    | .operand "help" => match rest with
      | [] => .error .help
      | [topic] =>
        if topic ∈ ["check", "dump", "exec", "trace", "help"] then .error .help
        else .error .unknownCommand
      | _ => .error .unknownCommand
    | .operand _ => .error .unknownCommand

end Thompson
