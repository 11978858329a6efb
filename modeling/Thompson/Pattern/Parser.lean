import Thompson.Pattern.Compile
import Thompson.Pattern.Cursor

/-!
The rules of the grammar with the state that they share: the place in the text, the supply of
names, the count of open groups in a machine word, and what a tracer was told. An error leaves the
state as it is at that moment, the count included. A rule does not know that the others come to an
end: it calls them through a parameter, and a clock says how deep calls may go.
-/
namespace Thompson

/-- An entry of the log, and the count of open groups at that moment. -/
structure Moment (σ β : Type) extends Entry σ β where
  depth : UInt32

structure Parser (σ β : Type) where
  place : Cursor
  supply : σ
  depth : UInt32
  log : List (Moment σ β)

/-- Why there is no value: the text is no pattern, or the clock ran out. -/
inductive Halt where
  | failed (e : PatternError)
  | unfinished
  deriving DecidableEq

/-- What comes to a value or halts, and changes the state in either case. -/
abbrev Action (σ β : Type) := ExceptT Halt (StateM (Parser σ β))

namespace Parser

variable {σ α β γ : Type}

def told (p : Parser σ β) : List (Event β) := p.log.map fun m => m.event

def fail (e : PatternError) : Action σ β γ := throw (.failed e)

def here : Action σ β Nat := return (← get).place.offset

def nextIs (c : Char) : Action σ β Bool := return (← get).place.nextIs c

def look : Action σ β Unit := do
  match (← get).place.peek with
  | .ok _ => return
  | .error e => fail e

def moveTo (place : Cursor) : Action σ β Unit := modify fun p => { p with place := place }

def take (expected : Char) : Action σ β Unit := do
  match (← get).place.expect expected with
  | .ok place => moveTo place
  | .error e => fail e

def takeNext : Action σ β Char := do
  match (← get).place.next with
  | .ok (c, place) =>
    moveTo place
    return c
  | .error e => fail e

def note (event : Event β) : Action σ β Unit :=
  modify fun p => { p with log := p.log ++ [⟨⟨event, p.place.offset, p.supply⟩, p.depth⟩] }

def limitError? (limit : Option UInt32) (p : Parser σ β) : Option PatternError :=
  limit.bind fun n => if n ≤ p.depth then some (.tooDeep n.toNat p.place.offset) else none

def raise (limit : Option UInt32) : Action σ β Unit := do
  match limitError? limit (← get) with
  | some e => fail e
  | none => modify fun p => { p with depth := p.depth + 1 }

/-- One group less is open, unless none is. -/
def lower : Action σ β Unit :=
  modify fun p => { p with depth := if p.depth = 0 then 0 else p.depth - 1 }

variable (K : Construction σ α β)

def construct (op : Operation) (make : σ → α × σ) : Action σ β α := do
  let (value, supply) := make (← get).supply
  modify fun p => { p with supply := supply }
  note (.build op (K.describe value))
  return value

def report (rule : Rule) : Except Halt α → Action σ β α
  | .ok value => do
    note (.leave rule (K.describe value))
    return value
  | .error (.failed e) => do
    note (.fail rule e)
    fail e
  | .error .unfinished => throw .unfinished

/-- One rule: the tracer is told when it is entered, and when it is left or has failed. -/
def around (rule : Rule) (body : Action σ β α) : Action σ β α := do
  note (.enter rule (← here))
  let outcome ← observing body
  report K rule outcome

def join : List α → α → Action σ β α
  | [], value => return value
  | branch :: done, value => do join done (← construct K .union (K.union branch value))

def atTermEnd : Action σ β Bool := do
  let p ← get
  return !p.place.hasMore || p.place.nextIs ')' || p.place.nextIs '|'

/-- A call: of a rule, or of a loop in one with what it has come to. -/
inductive Call (α : Type) where
  | regex
  | branches (done : List α)
  | term
  | factors (value : α)
  | factor
  | stars (value : α)
  | base

variable (limit : Option UInt32) (call : Call α → Action σ β α)

/-- A group. It needs at least its closing parenthesis. -/
def group : Action σ β α := do
  raise limit
  let opened ← here
  take '('
  look
  let inner ← call .regex
  if ← nextIs ')' then
    take ')'
    lower
    return inner
  else fail (.unterminatedGroup opened (← here))

def primitive : Action σ β α := do
  let offset ← here
  let c ← takeNext
  if c ≠ emptyMark ∧ ¬isSymbol c then fail (.unexpected .symbol (some c) offset)
  else construct K (.primitive c) (K.primitive c)

/-- What a call does, with the calls in it. -/
def rules : Call α → Action σ β α
  | .regex => around K .regex (call (.branches []))
  | .branches done => do
    let value ← call .term
    if ← nextIs '|' then
      take '|'
      call (.branches (K.stamp value :: done))
    else join K done (K.stamp value)
  | .term => around K .term do
    let empty ← construct K .empty K.empty
    call (.factors empty)
  | .factors value => do
    if ← atTermEnd then return value
    else
      let factor ← call .factor
      let joined ← construct K .concatenate fun s => (K.concatenate value factor, s)
      call (.factors joined)
  | .factor => around K .factor do
    let value ← call .base
    call (.stars value)
  | .stars value => do
    if ← nextIs '*' then
      take '*'
      let repeated ← construct K .repetition (K.repetition value)
      call (.stars repeated)
    else return value
  | .base => around K .base do
    if ← nextIs '(' then group limit call else primitive K

/-- Calls as deep as the clock allows. -/
def run : Nat → Call α → Action σ β α
  | 0 => fun _ => throw .unfinished
  | clock + 1 => rules K limit (run clock)

/-- The whole text as one alternation. What is left over is an error. -/
def root (clock : Nat) : Action σ β α := do
  let value ← run K limit clock .regex
  match (← get).place.peek with
  | .ok c => fail (.unexpected .endOfInput (some c) (← here))
  | .error _ => return value

def start (s : σ) (text : List Char) : Parser σ β := ⟨.ofText text, s, 0, []⟩

end Parser

/-- Parses a pattern with names from the first one on, for so long. -/
def parse (limit : Option UInt32) (clock : Nat) (pattern : String) :
    Except Halt Automaton × Parser NameSupply Summary :=
  Parser.root thompson limit clock (Parser.start ⟨0⟩ pattern.toList)

end Thompson
