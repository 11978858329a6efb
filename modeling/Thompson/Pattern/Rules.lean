import Thompson.Pattern.Compile
import Thompson.Pattern.Descent
import Thompson.Trace

/-!
The rules of the grammar as functions that call each other and tell a tracer when they are
entered, when they are left or fail, and what they build. An alternation gathers its branches
from left to right and joins them from right to left when the last one is complete.
-/
namespace Thompson

namespace Rules

open Descent (Parsed)

variable {σ α β τ : Type} {bound : Nat} (K : Construction σ α β) (T : Tracer τ β)

/-- One rule: the tracer is told when it is entered, and when it is left or has failed. -/
def around (rule : Rule) (offset : Nat) (t : τ)
    (body : τ → Except PatternError (Parsed σ α bound) × τ) :
    Except PatternError (Parsed σ α bound) × τ :=
  match body (T t (.enter rule offset)) with
  | (.error e, t) => (.error e, T t (.fail rule e))
  | (.ok p, t) => (.ok p, T t (.leave rule (K.describe p.value)))

def stars (p : Parsed σ α bound) (t : τ) : Parsed σ α bound × τ :=
  match h : p.place.rest with
  | '*' :: rest =>
    let (repeated, s) := K.repetition p.value p.supply
    stars ⟨repeated, s, ⟨p.place.offset + '*'.utf8Size, rest⟩, by
      have := p.fewer
      simp only [h, List.length_cons] at this
      exact Nat.lt_of_succ_lt this⟩ (T t (.build .repetition (K.describe repeated)))
  | _ => (p, t)
termination_by p.place.rest.length
decreasing_by simp only [h, List.length_cons, Nat.lt_succ_self]

/-- Joins finished branches to the value of those behind them, the last branch first. -/
def join (s : σ) (t : τ) : List α → α → α × σ × τ
  | [], value => (value, s, t)
  | branch :: done, value =>
    let (joined, s') := K.union branch value s
    join s' (T t (.build .union (K.describe joined))) done joined

mutual

def regex (limit : Option Nat) (depth : Nat) (k : Cursor) (s : σ) (t : τ) :
    Except PatternError (Parsed σ α (k.rest.length + 1)) × τ :=
  around K T .regex k.offset t fun t => branches limit depth [] k s t
termination_by (k.rest.length, 5)
decreasing_by exact Prod.Lex.right _ (by decide)

/-- Terms with bars between them, behind those that are done. -/
def branches (limit : Option Nat) (depth : Nat) (done : List α) (k : Cursor) (s : σ) (t : τ) :
    Except PatternError (Parsed σ α (k.rest.length + 1)) × τ :=
  match term limit depth k s t with
  | (.error e, t) => (.error e, t)
  | (.ok p, t) =>
    match h : p.place.rest with
    | '|' :: rest =>
      match branches limit depth (K.stamp p.value :: done) ⟨p.place.offset + '|'.utf8Size, rest⟩
        p.supply t with
      | (.error e, t) => (.error e, t)
      | (.ok r, t) => (.ok (r.weaken (by have := p.fewer; simp_all only [List.length_cons]; omega)), t)
    | _ =>
      let (whole, s, t) := join K T p.supply t done (K.stamp p.value)
      (.ok { p with value := whole, supply := s }, t)
termination_by (k.rest.length, 4)
decreasing_by
  · exact Prod.Lex.right _ (by decide)
  · have := p.fewer
    simp only [h, List.length_cons] at this
    exact Prod.Lex.left _ _ (by omega)

def term (limit : Option Nat) (depth : Nat) (k : Cursor) (s : σ) (t : τ) :
    Except PatternError (Parsed σ α (k.rest.length + 1)) × τ :=
  around K T .term k.offset t fun t =>
    let (empty, s') := K.empty s
    factors limit depth empty k s' (T t (.build .empty (K.describe empty)))
termination_by (k.rest.length, 3)
decreasing_by exact Prod.Lex.right _ (by decide)

def factors (limit : Option Nat) (depth : Nat) (value : α) (k : Cursor) (s : σ) (t : τ) :
    Except PatternError (Parsed σ α (k.rest.length + 1)) × τ :=
  if k.rest.head? = none ∨ k.nextIs '|' ∨ k.nextIs ')' then
    (.ok ⟨value, s, k, Nat.lt_succ_self _⟩, t)
  else
    match factor limit depth k s t with
    | (.error e, t) => (.error e, t)
    | (.ok f, t) =>
      match factors limit depth (K.concatenate value f.value) f.place f.supply
        (T t (.build .concatenate (K.describe (K.concatenate value f.value)))) with
      | (.error e, t) => (.error e, t)
      | (.ok r, t) => (.ok (r.weaken (Nat.succ_le_succ (Nat.le_of_lt f.fewer))), t)
termination_by (k.rest.length, 2)
decreasing_by
  · exact Prod.Lex.right _ (by decide)
  · exact Prod.Lex.left _ _ f.fewer

def factor (limit : Option Nat) (depth : Nat) (k : Cursor) (s : σ) (t : τ) :
    Except PatternError (Parsed σ α k.rest.length) × τ :=
  around K T .factor k.offset t fun t =>
    match base limit depth k s t with
    | (.error e, t) => (.error e, t)
    | (.ok b, t) =>
      let (p, t) := stars K T b t
      (.ok p, t)
termination_by (k.rest.length, 1)
decreasing_by exact Prod.Lex.right _ (by decide)

def base (limit : Option Nat) (depth : Nat) (k : Cursor) (s : σ) (t : τ) :
    Except PatternError (Parsed σ α k.rest.length) × τ :=
  around K T .base k.offset t fun t =>
    match h : k.rest with
    | [] => (.error (.inputEnds k.offset), t)
    | '(' :: rest =>
      match Reader.depthError? limit depth k.offset with
      | some e => (.error e, t)
      | none =>
        if rest = [] then (.error (.inputEnds (k.offset + '('.utf8Size)), t)
        else
          match regex limit (depth + 1) ⟨k.offset + '('.utf8Size, rest⟩ s t with
          | (.error e, t) => (.error e, t)
          | (.ok r, t) =>
            match closed : r.place.rest with
            | ')' :: behind =>
              (.ok ⟨r.value, r.supply, ⟨r.place.offset + ')'.utf8Size, behind⟩, by
                have := r.fewer; simp_all only [List.length_cons]; omega⟩, t)
            | _ => (.error (.unterminatedGroup k.offset r.place.offset), t)
    | c :: rest =>
      if isSymbol c ∨ c = emptyMark then
        let (value, s') := K.primitive c s
        (.ok ⟨value, s', ⟨k.offset + c.utf8Size, rest⟩, Nat.lt_succ_self _⟩,
          T t (.build (.primitive c) (K.describe value)))
      else (.error (.unexpected .symbol (some c) k.offset), t)
termination_by (k.rest.length, 0)
decreasing_by
  simp only [h, List.length_cons]
  exact Prod.Lex.left _ _ (Nat.lt_succ_self _)

end

/-- The whole text. What is left over behind the alternation is an error outside of all rules. -/
def read (limit : Option Nat) (s : σ) (t : τ) (text : List Char) : Except PatternError α × τ :=
  match regex K T limit 0 (.ofText text) s t with
  | (.error e, t) => (.error e, t)
  | (.ok r, t) =>
    match r.place.rest with
    | [] => (.ok r.value, t)
    | c :: _ => (.error (.unexpected .endOfInput (some c) r.place.offset), t)

end Rules

/-- Compiles a pattern by the rules, for a tracer in the given state. -/
def compileFor {τ : Type} (T : Tracer τ Summary) (limit : Option Nat) (pattern : String) (t : τ) :
    Except PatternError Automaton × τ :=
  Rules.read thompson T limit ⟨0⟩ t pattern.toList

/-- Compiles a pattern and writes its trace, unless the program stops at a line. -/
def compileTraced (verbosity : Verbosity) (limit : Option Nat) (pattern : String) :
    Option (Except PatternError Automaton × List String) :=
  let (outcome, last) := compileFor .recording limit pattern (some (⟨verbosity, 0, false⟩, []))
  last.map fun (_, lines) => (outcome, lines)

end Thompson
