import Thompson.Automaton.Basic
import Thompson.JsonTree
import Thompson.Text.Basic

/-!
The text form of an automaton: a line with its alphabet, then a line for every
state in the order of their numbers, with its marks and its edges by label.
-/
namespace Thompson

/-- Epsilon comes before every symbol, and symbols by code point. -/
def Label.le : Label → Label → Bool
  | .epsilon, _ => true
  | .symbol _, .epsilon => false
  | .symbol c, .symbol d => c ≤ d

def State.le (s t : State) : Bool := s.index ≤ t.index

def State.listText (ss : List State) : String := ", ".intercalate (ss.map State.text)

namespace Automaton

def alphabetLine (A : Automaton) : String :=
  "Σ = \x7b" ++ ", ".intercalate (A.alphabet.toList.map Char.toString) ++ "\x7d\n"

def marks (A : Automaton) (s : State) : String :=
  match decide (A.start = s), A.isFinal s with
  | true, true => " (start, final)"
  | true, false => " (start)"
  | false, true => " (final)"
  | false, false => ""

/-- The edges of one state, by label, with their targets in the order of their numbers. -/
def edgesText (A : Automaton) (s : State) : String :=
  match (A.labelsFrom s).mergeSort Label.le with
  | [] => "∅"
  | labels => "; ".intercalate (labels.map fun l =>
      l.text ++ " → " ++ State.listText ((A.successors s l).mergeSort State.le))

def stateLine (A : Automaton) (s : State) : String :=
  s.text ++ A.marks s ++ ": " ++ A.edgesText s ++ "\n"

def listing (A : Automaton) (showAlphabet : Bool) : String :=
  (if showAlphabet then A.alphabetLine else "") ++
    String.join ((A.states.toList.mergeSort State.le).map A.stateLine)

end Automaton

/-!
The JSON form of an automaton. States are written by name, labels as in listings,
and every list keeps the order of the automaton.
-/

def State.json (s : State) : JsonTree := .string s.text

def Edge.json (e : Edge) : JsonTree :=
  .object [("from", e.source.json), ("label", .string e.label.text), ("to", e.target.json)]

def Automaton.json (A : Automaton) : JsonTree :=
  .object [("start", A.start.json),
    ("states", .array (A.states.toList.map State.json)),
    ("finals", .array (A.finals.toList.map State.json)),
    ("alphabet", .array (A.alphabet.toList.map fun c => .string c.toString)),
    ("transitions", .array (A.transitions.map Edge.json))]

/-!
An automaton from its JSON form. The lists are gone through in order: states join
first, then edges, then final states; the start is set and the alphabet filled last.
-/

def State.ofText? (text : String) : Option State :=
  match text.toList with
  | 'q' :: digits =>
    ((Text.decimal? digits).filter (· < UInt32.size)).map fun n => ⟨UInt32.ofNat n⟩
  | _ => none

theorem State.ofText?_text (s : State) : State.ofText? s.text = some s := by
  have bound : s.index.toNat < UInt32.size := s.index.toNat_lt
  simp only [State.ofText?, State.toList_text, Text.decimal?_toDigits, Option.filter_some, decide_eq_true bound,
    if_true, Option.map_some, UInt32.ofNat_toNat]

def State.ofJson? : JsonTree → Option State
  | .string text => State.ofText? text
  | _ => none

def onlyChar? (text : String) : Option Char :=
  match text.toList with
  | [c] => some c
  | _ => none

def charOfJson? : JsonTree → Option Char
  | .string text => onlyChar? text
  | _ => none

/-- What is written as epsilon is read as epsilon. -/
def Label.ofText? (text : String) : Option Label :=
  if text = Label.epsilon.text then some .epsilon else (onlyChar? text).map .symbol

theorem Label.ofText?_text {l : Label} (plain : l ≠ .symbol 'ε') : Label.ofText? l.text = some l := by
  cases l with
  | epsilon => rfl
  | symbol c =>
    have written : (Label.symbol c).text ≠ Label.epsilon.text := fun same =>
      plain (by simpa [Label.text] using congrArg String.toList same)
    rw [ofText?, if_neg written]
    simp [onlyChar?, text]

def Edge.ofJson? : JsonTree → Option Edge
  | .object [("from", source), ("label", .string label), ("to", target)] => do
    some ⟨← State.ofJson? source, ← Label.ofText? label, ← State.ofJson? target⟩
  | _ => none

/-- The automaton with the given parts, put together by its operations. -/
def Automaton.assemble (start first : State) (states finals : List State) (alphabet : List Char)
    (edges : List Edge) : Automaton :=
  let base := states.foldl addState (single first)
  (((finals.foldl addFinal (edges.foldl addEdge base)).setStart start).addSymbols alphabet)

def Automaton.ofJson? : JsonTree → Option Automaton
  | .object [("start", start), ("states", .array (first :: states)), ("finals", .array finals),
      ("alphabet", .array alphabet), ("transitions", .array edges)] => do
    some (assemble (← State.ofJson? start) (← State.ofJson? first) (← states.mapM State.ofJson?)
      (← finals.mapM State.ofJson?) (← alphabet.mapM charOfJson?) (← edges.mapM Edge.ofJson?))
  | _ => none

theorem Edge.ofJson?_json {e : Edge} (plain : e.label ≠ .symbol 'ε') :
    Edge.ofJson? e.json = some e := by
  simp [Edge.json, Edge.ofJson?, State.json, State.ofJson?, State.ofText?_text,
    Label.ofText?_text plain]

end Thompson
