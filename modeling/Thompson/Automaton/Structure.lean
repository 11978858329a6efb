import Thompson.Automaton.Basic

/-!
The structural rules of an automaton, and the first of them that one breaks. No
operation of `Automaton` leads from a well-formed automaton to a flawed one.
-/
namespace Thompson

inductive Flaw where
  | unknownStart (s : State)
  | unknownFinal (s : State)
  | danglingEdge (e : Edge)
  | emptyMarkInAlphabet
  deriving DecidableEq

def Flaw.message : Flaw → String
  | .unknownStart s => "start state " ++ s.text ++ " is not in the state set"
  | .unknownFinal s => "final state " ++ s.text ++ " is not in the state set"
  | .danglingEdge e => "transition " ++ e.source.text ++ " --" ++ e.label.text ++ "--> " ++
      e.target.text ++ " references an unknown state"
  | .emptyMarkInAlphabet => "alphabet contains the reserved epsilon marker `e`"

namespace Automaton

/-- Start, final states and both ends of every edge are states, and the mark for
    the empty text is no symbol. -/
structure WellFormed (A : Automaton) : Prop where
  start_mem : A.start ∈ A.states
  finals_subset : ∀ s ∈ A.finals, s ∈ A.states
  source_mem : ∀ e ∈ A.edges, e.source ∈ A.states
  target_mem : ∀ e ∈ A.edges, e.target ∈ A.states
  emptyMark_not_mem : emptyMark ∉ A.alphabet

/-- The first broken rule, in the order start, final states, edges, alphabet. -/
def flaw? (A : Automaton) : Option Flaw :=
  if A.start ∉ A.states then some (.unknownStart A.start)
  else match A.finals.toList.find? (· ∉ A.states) with
    | some s => some (.unknownFinal s)
    | none =>
      match A.edges.toList.find? fun e => e.source ∉ A.states ∨ e.target ∉ A.states with
      | some e => some (.danglingEdge e)
      | none => if emptyMark ∈ A.alphabet then some .emptyMarkInAlphabet else none

theorem flaw?_eq_none_iff {A : Automaton} : A.flaw? = none ↔ A.WellFormed := by
  unfold flaw?
  constructor
  · intro h
    split at h
    · contradiction
    rename_i start
    split at h
    · contradiction
    rename_i finals
    split at h
    · contradiction
    rename_i edges
    split at h
    · contradiction
    rename_i mark
    simp only [List.find?_eq_none, decide_eq_true_eq, not_or, Classical.not_not] at finals edges
    exact ⟨Classical.not_not.mp start, finals, fun e he => (edges e he).1,
      fun e he => (edges e he).2, mark⟩
  · intro h
    have finals : A.finals.toList.find? (· ∉ A.states) = none :=
      List.find?_eq_none.mpr fun s hs => by simpa using h.finals_subset s hs
    have edges : A.edges.toList.find? (fun e => e.source ∉ A.states ∨ e.target ∉ A.states) = none :=
      List.find?_eq_none.mpr fun e he => by simpa using ⟨h.source_mem e he, h.target_mem e he⟩
    rw [if_neg (Classical.not_not.mpr h.start_mem), finals, edges]
    exact if_neg h.emptyMark_not_mem

end Automaton

end Thompson
