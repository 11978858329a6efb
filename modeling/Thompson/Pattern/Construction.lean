import Thompson.Fragment
import Thompson.Pattern.Cursor

/-!
What reading a pattern builds. A reader knows the five operations of a
construction and the stamp put on a finished branch, and nothing else of the
values: automata, languages and syntax trees are built by one and the same reader.
-/
namespace Thompson

inductive Operation where
  | empty
  | primitive (c : Char)
  | concatenate
  | union
  | repetition
  deriving DecidableEq

def Operation.text : Operation → String
  | .empty => "empty"
  | .primitive c => "primitive `" ++ c.toString ++ "`"
  | .concatenate => "concatenate"
  | .union => "union"
  | .repetition => "repetition"

/-- Values `α` built from a supply `σ`, and what a log keeps of one. -/
structure Construction (σ α β : Type) where
  empty : σ → α × σ
  primitive : Char → σ → α × σ
  concatenate : α → α → α
  union : α → α → σ → α × σ
  repetition : α → σ → α × σ
  stamp : α → α
  describe : α → β

structure Summary where
  start : State
  finals : List State
  stateCount : Nat
  deriving DecidableEq

def Automaton.summary (A : Automaton) : Summary := ⟨A.start, A.finals.toList, A.states.size⟩

/-- Fragments; a branch is over the whole alphabet, whatever it is built from. -/
def thompson : Construction NameSupply Automaton Summary where
  empty := Fragment.empty
  primitive := Fragment.primitive
  concatenate := Fragment.concatenate
  union := Fragment.union
  repetition := Fragment.repetition
  stamp A := A.addSymbols inputSymbols
  describe := Automaton.summary

/-!
What happens while a pattern is read: rules of the grammar are entered and left,
or fail; operations build values. An entry adds when it happened.
-/

inductive Rule where
  | regex
  | term
  | factor
  | base
  deriving DecidableEq

def Rule.text : Rule → String
  | .regex => "regex"
  | .term => "term"
  | .factor => "factor"
  | .base => "base"

inductive Event (β : Type) where
  | enter (rule : Rule) (offset : Nat)
  | leave (rule : Rule) (result : β)
  | build (operation : Operation) (result : β)
  | fail (rule : Rule) (error : PatternError)
  deriving DecidableEq

/-- An event, the bytes consumed before it, and the supply after it. -/
structure Entry (σ β : Type) where
  event : Event β
  consumed : Nat
  supply : σ

/-!
The operations of a construction as a program for a stack. An operation takes its
operands from the top, the later one first, and leaves its value there.
-/

variable {σ α β : Type}

structure Stack (σ α : Type) where
  values : List α
  supply : σ
  deriving DecidableEq

def Stack.push (stack : Stack σ α) (value : α) : Stack σ α :=
  { stack with values := value :: stack.values }

/-- The value of an operation, and the stack without its operands; none if one is missing. -/
def Operation.apply (K : Construction σ α β) : Operation → Stack σ α → Option (α × Stack σ α)
  | .empty, ⟨values, s⟩ =>
    let (x, s) := K.empty s
    some (x, ⟨values, s⟩)
  | .primitive c, ⟨values, s⟩ =>
    let (x, s) := K.primitive c s
    some (x, ⟨values, s⟩)
  | .concatenate, ⟨second :: first :: values, s⟩ =>
    some (K.concatenate first second, ⟨values, s⟩)
  | .union, ⟨second :: first :: values, s⟩ =>
    let (x, s) := K.union first second s
    some (x, ⟨values, s⟩)
  | .repetition, ⟨value :: values, s⟩ =>
    let (x, s) := K.repetition value s
    some (x, ⟨values, s⟩)
  | _, _ => none

/-- Operations in turn, with what is to be told of the value that each leaves on top. -/
def Stack.run (K : Construction σ α β) (stack : Stack σ α) :
    List Operation → Option (List β × Stack σ α)
  | [] => some ([], stack)
  | op :: ops =>
    match op.apply K stack with
    | none => none
    | some (value, below) =>
      ((below.push value).run K ops).map fun (told, last) => (K.describe value :: told, last)

theorem Stack.run_append (K : Construction σ α β) (stack : Stack σ α) (ops more : List Operation) :
    stack.run K (ops ++ more) = (stack.run K ops).bind fun (told, next) =>
      (next.run K more).map fun (rest, last) => (told ++ rest, last) := by
  induction ops generalizing stack with
  | nil => simp [run]
  | cons op ops ih =>
    simp only [List.cons_append, run]
    rcases op.apply K stack with _ | ⟨value, below⟩
    · rfl
    simp only [ih]
    rcases (below.push value).run K ops with _ | ⟨told, last⟩
    · rfl
    simp only [Option.map_some, Option.bind_some]
    rcases last.run K more with _ | ⟨rest, final⟩ <;> rfl

end Thompson
