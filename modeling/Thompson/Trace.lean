import Thompson.Pattern.Construction
import Thompson.Text.Basic

/-!
A readable trace of a reading. Operations and the first failure always get a line; a verbose trace
also shows the rules, indented by how many of them are active. The blanks in front of a line are
counted in a field of sixteen bits: where a line would need more of them, the program stops. Who is
told of the events is a tracer. It has a state of its own and changes it with every event; it is
told of nothing else, and nobody asks it for anything.
-/
namespace Thompson

inductive Verbosity where
  | default
  | verbose
  deriving DecidableEq

def Summary.text (f : Summary) : String :=
  "start " ++ f.start.text ++ ", finals [" ++ ", ".intercalate (f.finals.map State.text) ++ "], " ++
    toString f.stateCount ++ " states"

def Event.text : Event Summary → String
  | .enter rule offset => rule.text ++ " @" ++ toString offset
  | .leave rule result => rule.text ++ " ⇒ " ++ result.text
  | .build operation result => operation.text ++ " → " ++ result.text
  | .fail rule error => rule.text ++ " ✗ " ++ error.message

/-- What a trace remembers: how many rules are active, and whether a failure was shown. -/
structure Recorder where
  verbosity : Verbosity
  depth : Nat := 0
  failureShown : Bool := false
  deriving DecidableEq

/-- The most blanks that can be asked for. -/
def greatestWidth : Nat := 0xffff

namespace Recorder

def width (r : Recorder) : Nat :=
  match r.verbosity with
  | .default => 0
  | .verbose => 2 * r.depth

def line (r : Recorder) (text : String) : String := Text.indented r.width text

def after (r : Recorder) : Event Summary → Recorder
  | .enter .. => { r with depth := r.depth + 1 }
  | .leave .. => { r with depth := r.depth - 1 }
  | .build .. => r
  | .fail .. => { r with depth := r.depth - 1, failureShown := true }

/-- Who writes the line of an event, if it has one. Only a verbose trace has lines about rules, and
    the rule that fails first is the only one shown. An exit and a failure stand one level out. -/
def writer? (r : Recorder) : Event Summary → Option Recorder
  | .enter .. => if r.verbosity = .verbose then some r else none
  | .leave rule result =>
    if r.verbosity = .verbose then some (r.after (.leave rule result)) else none
  | .build .. => some r
  | .fail rule error => if r.failureShown then none else some (r.after (.fail rule error))

def note (r : Recorder) (e : Event Summary) : Recorder × List String :=
  (r.after e, (r.writer? e).toList.map fun writer => writer.line e.text)

def noteAll (r : Recorder) : List (Event Summary) → Recorder × List String
  | [] => (r, [])
  | e :: es =>
    let (next, lines) := r.note e
    let (last, more) := next.noteAll es
    (last, lines ++ more)

/-- The line of an event is too wide to be written. -/
def stops (r : Recorder) (e : Event Summary) : Bool :=
  (r.writer? e).any fun writer => greatestWidth < writer.width

def note? (r : Recorder) (e : Event Summary) : Option (Recorder × List String) :=
  if r.stops e then none else some (r.note e)

def noteAll? (r : Recorder) : List (Event Summary) → Option (Recorder × List String)
  | [] => some (r, [])
  | e :: es =>
    if r.stops e then none
    else ((r.after e).noteAll? es).map fun (last, more) => (last, (r.note e).2 ++ more)

end Recorder

def traceLines? (verbosity : Verbosity) (es : List (Event Summary)) : Option (List String) :=
  ((Recorder.noteAll? ⟨verbosity, 0, false⟩ es)).map Prod.snd

/-- The lines of a trace as far as their width does not matter. -/
def traceLines (verbosity : Verbosity) (es : List (Event Summary)) : List String :=
  (Recorder.noteAll ⟨verbosity, 0, false⟩ es).2

def traceText (lines : List String) : String := String.join (lines.map (· ++ "\n"))

variable {σ β τ : Type}

/-- What an event does to the state of a tracer. -/
abbrev Tracer (τ β : Type) := τ → Event β → τ

namespace Tracer

def tellAll (T : Tracer τ β) (t : τ) (log : List (Entry σ β)) : τ :=
  log.foldl (fun t entry => T t entry.event) t

def failAll (T : Tracer τ β) (t : τ) (active : List Rule) (e : PatternError) : τ :=
  active.foldl (fun t rule => T t (.fail rule e)) t

def silent : Tracer Unit β := fun _ _ => ()

/-- It keeps the text of the lines. -/
def printing : Tracer (Recorder × List String) Summary := fun (r, lines) event =>
  let (next, more) := r.note event
  (next, lines ++ more)

/-- It writes down the lines, and is gone when the program has stopped. -/
def recording : Tracer (Option (Recorder × List String)) Summary := fun state event =>
  state.bind fun (r, lines) => (r.note? event).map fun (next, more) => (next, lines ++ more)

theorem tellAll_append (T : Tracer τ β) (t : τ) (log more : List (Entry σ β)) :
    T.tellAll t (log ++ more) = T.tellAll (T.tellAll t log) more := List.foldl_append

theorem tellAll_printing (r : Recorder) (lines : List String) (log : List (Entry σ Summary)) :
    printing.tellAll (r, lines) log =
      ((r.noteAll (log.map Entry.event)).1, lines ++ (r.noteAll (log.map Entry.event)).2) := by
  induction log generalizing r lines with
  | nil => simp [tellAll, Recorder.noteAll]
  | cons entry log ih =>
    have rest := ih (r.note entry.event).1 (lines ++ (r.note entry.event).2)
    simpa only [tellAll, List.foldl_cons, List.map_cons, Recorder.noteAll, printing,
      List.append_assoc] using rest

theorem tellAll_recording_none (log : List (Entry σ Summary)) :
    recording.tellAll none log = none := by
  induction log with
  | nil => rfl
  | cons entry log ih => exact ih

theorem tellAll_recording (r : Recorder) (lines : List String) (log : List (Entry σ Summary)) :
    recording.tellAll (some (r, lines)) log =
      (r.noteAll? (log.map Entry.event)).map fun last => (last.1, lines ++ last.2) := by
  induction log generalizing r lines with
  | nil => simp [tellAll, Recorder.noteAll?]
  | cons entry log ih =>
    by_cases stops : r.stops entry.event = true
    · have gone : recording.tellAll (some (r, lines)) (entry :: log) = recording.tellAll none log := by
        simp [tellAll, recording, Recorder.note?, stops]
      rw [gone, tellAll_recording_none, List.map_cons, Recorder.noteAll?, if_pos stops]
      rfl
    · have noted : recording.tellAll (some (r, lines)) (entry :: log) =
          recording.tellAll (some (r.after entry.event, lines ++ (r.note entry.event).2)) log := by
        simp [tellAll, recording, Recorder.note?, Recorder.note, stops]
      rw [noted, ih, List.map_cons, Recorder.noteAll?, if_neg stops, Option.map_map]
      simp only [Function.comp_def, List.append_assoc]

end Tracer

end Thompson
