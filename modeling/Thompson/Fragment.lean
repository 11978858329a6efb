import Thompson.Automaton.Basic

/-!
Thompson's construction. A fragment is an automaton with any number of final
states; two fragments that do not share a state are joined by adding epsilon
edges, never by removing or merging states. New states take their names from a
supply that counts upwards.
-/
namespace Thompson

structure NameSupply where
  issued : UInt32 := 0
  deriving DecidableEq

def NameSupply.fresh (names : NameSupply) : State × NameSupply :=
  (⟨names.issued⟩, ⟨names.issued + 1⟩)

@[simp] theorem NameSupply.fresh_fst (names : NameSupply) : names.fresh.1 = ⟨names.issued⟩ := rfl

@[simp] theorem NameSupply.issued_fresh (names : NameSupply) :
    names.fresh.2.issued = names.issued + 1 := rfl

namespace Fragment

/-- Accepts the empty text alone, over an epsilon edge to its own final state. -/
def empty (names : NameSupply) : Automaton × NameSupply :=
  let (start, names) := names.fresh
  let (final, names) := names.fresh
  (((Automaton.single start).addFinal final).addEdge ⟨start, .epsilon, final⟩, names)

/-- Accepts one symbol; for the mark of the empty text, a single state that is both ends. -/
def primitive (c : Char) (names : NameSupply) : Automaton × NameSupply :=
  let (start, names) := names.fresh
  if c = emptyMark then ((Automaton.single start).addFinal start, names)
  else
    let (final, names) := names.fresh
    ((((Automaton.single start).addFinal final).addEdge ⟨start, .symbol c, final⟩).addSymbols [c],
      names)

def finalEdges (A : Automaton) (next : State) : List Edge :=
  A.finals.toList.map fun s => ⟨s, .epsilon, next⟩

/-- `first`, then `second`: the final states of `first` lead on and are final no more.
    No name is needed. -/
def concatenate (first second : Automaton) : Automaton :=
  { first.addEdges (finalEdges first second.start) with finals := .empty }.absorb second

/-- `first` or `second`, by way of a new start. -/
def union (first second : Automaton) (names : NameSupply) : Automaton × NameSupply :=
  let (start, names) := names.fresh
  ((((first.absorb second).addEdge ⟨start, .epsilon, first.start⟩).addEdge
    ⟨start, .epsilon, second.start⟩).setStart start, names)

/-- Any number of times: the final states lead back as well. The new start, which is
    final too, has no edge into it. -/
def repetition (A : Automaton) (names : NameSupply) : Automaton × NameSupply :=
  let (start, names) := names.fresh
  ((((A.addEdges (finalEdges A A.start)).addEdge ⟨start, .epsilon, A.start⟩).setStart start).addFinal
    start, names)

end Fragment

/-!
Fragments made with names from one supply. An operation takes its operands out of the
pool, wherever they lie in it, and puts its value in. A pool can be reached as long
as names last.
-/

/-- So many names more can be handed out, and each will be new. -/
def NameSupply.HasRoom (names : NameSupply) (count : Nat) : Prop :=
  names.issued.toNat + count < UInt32.size

instance (names : NameSupply) (count : Nat) : Decidable (names.HasRoom count) :=
  inferInstanceAs (Decidable (names.issued.toNat + count < UInt32.size))

/-- The supply, the fragments at hand, and those that were given up. -/
structure Pool where
  names : NameSupply
  live : List Automaton
  dropped : List Automaton

namespace Pool

def primitiveNames (c : Char) : Nat := if c = emptyMark then 1 else 2

inductive Reachable : Pool → Prop where
  | start : Reachable ⟨⟨0⟩, [], []⟩
  | empty {names : NameSupply} {live dropped : List Automaton}
      (before : Reachable ⟨names, live, dropped⟩) (room : names.HasRoom 2) :
      Reachable ⟨(Fragment.empty names).2, (Fragment.empty names).1 :: live, dropped⟩
  | primitive {names : NameSupply} {live dropped : List Automaton} (c : Char)
      (before : Reachable ⟨names, live, dropped⟩) (room : names.HasRoom (primitiveNames c)) :
      Reachable ⟨(Fragment.primitive c names).2, (Fragment.primitive c names).1 :: live, dropped⟩
  | concatenate {names : NameSupply} {live rest dropped : List Automaton} {first second : Automaton}
      (before : Reachable ⟨names, live, dropped⟩) (operands : live.Perm (first :: second :: rest)) :
      Reachable ⟨names, Fragment.concatenate first second :: rest, dropped⟩
  | union {names : NameSupply} {live rest dropped : List Automaton} {first second : Automaton}
      (before : Reachable ⟨names, live, dropped⟩) (operands : live.Perm (first :: second :: rest))
      (room : names.HasRoom 1) :
      Reachable ⟨(Fragment.union first second names).2,
        (Fragment.union first second names).1 :: rest, dropped⟩
  | repetition {names : NameSupply} {live rest dropped : List Automaton} {operand : Automaton}
      (before : Reachable ⟨names, live, dropped⟩) (operands : live.Perm (operand :: rest))
      (room : names.HasRoom 1) :
      Reachable ⟨(Fragment.repetition operand names).2,
        (Fragment.repetition operand names).1 :: rest, dropped⟩
  | drop {names : NameSupply} {live rest dropped : List Automaton} {fragment : Automaton}
      (before : Reachable ⟨names, live, dropped⟩) (operands : live.Perm (fragment :: rest)) :
      Reachable ⟨names, rest, fragment :: dropped⟩

theorem issued_primitive (c : Char) {names : NameSupply} (room : names.HasRoom (primitiveNames c)) :
    (Fragment.primitive c names).2.issued.toNat = names.issued.toNat + primitiveNames c := by
  simp only [NameSupply.HasRoom] at room
  by_cases h : c = emptyMark
  · simp only [primitiveNames, h, if_true] at room ⊢
    simp only [Fragment.primitive, if_true, NameSupply.issued_fresh, UInt32.toNat_add]
    exact Nat.mod_eq_of_lt room
  · simp only [primitiveNames, h, if_false] at room ⊢
    simp only [Fragment.primitive, h, if_false, NameSupply.issued_fresh, UInt32.toNat_add,
      UInt32.toNat_one]
    simp only [UInt32.size] at room
    omega

end Pool

end Thompson
