import Thompson.Fragment
import Thompson.Proofs.Automaton.WellFormed
import Thompson.Proofs.Fragment.Views

/-!
Which names a fragment's states have. Names are handed out upwards, so fragments that were
built one after the other have their states in ranges that do not meet, and a name that is
still to come is no state of any fragment so far.
-/
namespace Thompson

theorem NameSupply.toNat_issued_fresh {names : NameSupply} (room : names.HasRoom 1) :
    names.fresh.2.issued.toNat = names.issued.toNat + 1 := by
  simp only [NameSupply.HasRoom, UInt32.size] at room
  simp only [NameSupply.issued_fresh, UInt32.toNat_add, UInt32.toNat_one]
  omega

theorem NameSupply.HasRoom.fresh {names : NameSupply} {count : Nat}
    (room : names.HasRoom (count + 1)) : names.fresh.2.HasRoom count := by
  have first : names.HasRoom 1 := by
    simp only [NameSupply.HasRoom] at room ⊢
    omega
  simp only [NameSupply.HasRoom] at room ⊢
  rw [NameSupply.toNat_issued_fresh first]
  omega

theorem NameSupply.HasRoom.mono {names : NameSupply} {m n : Nat} (room : names.HasRoom n)
    (less : m ≤ n) : names.HasRoom m := by
  simp only [NameSupply.HasRoom] at room ⊢
  omega

theorem NameSupply.HasRoom.rest {names later : NameSupply} {taken count : Nat}
    (room : names.HasRoom (taken + count))
    (issued : later.issued.toNat = names.issued.toNat + taken) : later.HasRoom count := by
  simp only [NameSupply.HasRoom] at room ⊢
  omega

/-- Well-formed, with states that are named from `low` on and before `high`. -/
structure Automaton.Within (A : Automaton) (low high : Nat) : Prop where
  wellFormed : A.WellFormed
  lower : ∀ s ∈ A.states, low ≤ s.index.toNat
  upper : ∀ s ∈ A.states, s.index.toNat < high

namespace Automaton.Within

variable {A B : Automaton} {low middle high : Nat}

theorem of_states (wellFormed : A.WellFormed)
    (inside : ∀ s ∈ A.states, low ≤ s.index.toNat ∧ s.index.toNat < high) : A.Within low high :=
  ⟨wellFormed, fun s member => (inside s member).1, fun s member => (inside s member).2⟩

theorem lt (h : A.Within low high) : low < high := by
  have lower := h.lower A.start h.wellFormed.start_mem
  have upper := h.upper A.start h.wellFormed.start_mem
  omega

theorem disjoint (first : A.Within low middle) (second : B.Within middle high) :
    ∀ s ∈ B.states, s ∉ A.states := by
  intro s inSecond inFirst
  have below := first.upper s inFirst
  have above := second.lower s inSecond
  omega

theorem next_not_mem {names : NameSupply} (h : A.Within low high)
    (old : high ≤ names.issued.toNat) : (⟨names.issued⟩ : State) ∉ A.states := by
  intro member
  have upper : names.issued.toNat < high := h.upper _ member
  omega

theorem addSymbols (h : A.Within low high) (cs : List Char) : (A.addSymbols cs).Within low high :=
  ⟨h.wellFormed.addSymbols cs, h.lower, h.upper⟩

end Automaton.Within

namespace Fragment

variable {A B : Automaton} {names : NameSupply} {low middle : Nat}

theorem wellFormed_empty (names : NameSupply) : (empty names).1.WellFormed :=
  ((Automaton.WellFormed.single _).addFinal _).addEdge _

theorem wellFormed_primitive (c : Char) (names : NameSupply) :
    (primitive c names).1.WellFormed := by
  by_cases mark : c = emptyMark
  · rw [mark, primitive_mark]
    exact (Automaton.WellFormed.single _).addFinal _
  · rw [primitive_letter mark]
    exact (((Automaton.WellFormed.single _).addFinal _).addEdge _).addSymbols _

theorem wellFormed_concatenate (first : A.WellFormed) (second : B.WellFormed) :
    (concatenate A B).WellFormed :=
  (first.addEdges _).withoutFinals.absorb second

theorem wellFormed_union (first : A.WellFormed) (second : B.WellFormed) (names : NameSupply) :
    (union A B names).1.WellFormed :=
  (((first.absorb second).addEdge _).addEdge _).setStart _

theorem wellFormed_repetition (h : A.WellFormed) (names : NameSupply) :
    (repetition A names).1.WellFormed :=
  (((h.addEdges _).addEdge _).setStart _).addFinal _

theorem mem_states_concatenate (first : A.WellFormed) (second : B.WellFormed) {s : State} :
    s ∈ (concatenate A B).states ↔ s ∈ A.states ∨ s ∈ B.states := by
  simp only [concatenate, Automaton.mem_states_absorb, Automaton.mem_states_addEdges]
  constructor
  · rintro ((old | ⟨e, he, ends⟩) | other)
    · exact Or.inl old
    · obtain ⟨f, final, rfl⟩ := mem_finalEdges.mp he
      rcases ends with rfl | rfl
      · exact Or.inl (first.finals_subset _ final)
      · exact Or.inr second.start_mem
    · exact Or.inr other
  · exact Or.imp_left Or.inl

theorem mem_states_union (first : A.WellFormed) (second : B.WellFormed) {s : State} :
    s ∈ (union A B names).1.states ↔
      s = ⟨names.issued⟩ ∨ s ∈ A.states ∨ s ∈ B.states := by
  have left := first.start_mem
  have right := second.start_mem
  simp only [union, NameSupply.fresh_fst, Automaton.mem_states_setStart,
    Automaton.mem_states_addEdge, Automaton.mem_states_absorb]
  grind

theorem mem_states_repetition (h : A.WellFormed) {s : State} :
    s ∈ (repetition A names).1.states ↔ s = ⟨names.issued⟩ ∨ s ∈ A.states := by
  simp only [repetition, NameSupply.fresh_fst, Automaton.mem_states_addFinal,
    Automaton.mem_states_setStart, Automaton.mem_states_addEdge, Automaton.mem_states_addEdges]
  constructor
  · rintro (same | same | (old | ⟨e, he, ends⟩) | same | rfl)
    · exact Or.inl same
    · exact Or.inl same
    · exact Or.inr old
    · obtain ⟨f, final, rfl⟩ := mem_finalEdges.mp he
      rcases ends with rfl | rfl
      · exact Or.inr (h.finals_subset _ final)
      · exact Or.inr h.start_mem
    · exact Or.inl same
    · exact Or.inr h.start_mem
  · rintro (same | old)
    · exact Or.inl same
    · exact Or.inr (Or.inr (Or.inl (Or.inl old)))

theorem target_repetition_ne (h : A.WellFormed) (new : ⟨names.issued⟩ ∉ A.states) {e : Edge}
    (he : e ∈ (repetition A names).1.edges) : e.target ≠ ⟨names.issued⟩ := by
  have oldStart := ne_of_mem_of_not_mem h.start_mem new
  rcases mem_edges_repetition.mp he with (own | ⟨f, _, rfl⟩) | rfl
  · exact ne_of_mem_of_not_mem (h.target_mem e own) new
  · exact oldStart
  · exact oldStart

section Ranges

theorem issued_ne_next (room : names.HasRoom 1) :
    (⟨names.issued⟩ : State) ≠ ⟨names.issued + 1⟩ := by
  intro same
  have next := NameSupply.toNat_issued_fresh room
  have values := congrArg (fun s : State => s.index.toNat) same
  simp only [NameSupply.issued_fresh] at next
  simp only at values
  omega

theorem toNat_issued_empty (room : names.HasRoom 2) :
    (empty names).2.issued.toNat = names.issued.toNat + 2 := by
  have first := NameSupply.toNat_issued_fresh (room.mono (Nat.le_succ 1))
  have second := NameSupply.toNat_issued_fresh room.fresh
  simp only [empty]
  omega

theorem toNat_issued_union (room : names.HasRoom 1) :
    (union A B names).2.issued.toNat = names.issued.toNat + 1 :=
  NameSupply.toNat_issued_fresh room

theorem toNat_issued_repetition (room : names.HasRoom 1) :
    (repetition A names).2.issued.toNat = names.issued.toNat + 1 :=
  NameSupply.toNat_issued_fresh room

theorem within_empty (room : names.HasRoom 2) :
    (empty names).1.Within names.issued.toNat (empty names).2.issued.toNat := by
  have next := NameSupply.toNat_issued_fresh (room.mono (Nat.le_succ 1))
  rw [NameSupply.issued_fresh] at next
  rw [toNat_issued_empty room]
  apply Automaton.Within.of_states (wellFormed_empty names)
  intro s member
  rcases mem_states_empty.mp member with rfl | rfl
  · simp only
    omega
  · simp only
    omega

theorem within_primitive {c : Char} (room : names.HasRoom (Pool.primitiveNames c)) :
    (primitive c names).1.Within names.issued.toNat (primitive c names).2.issued.toNat := by
  rw [Pool.issued_primitive c room]
  apply Automaton.Within.of_states (wellFormed_primitive c names)
  intro s member
  by_cases mark : c = emptyMark
  · have count : Pool.primitiveNames c = 1 := if_pos mark
    rw [mark, mem_states_primitive_mark] at member
    subst s
    simp only
    omega
  · have count : Pool.primitiveNames c = 2 := if_neg mark
    rw [count] at room
    have next := NameSupply.toNat_issued_fresh (room.mono (Nat.le_succ 1))
    rw [NameSupply.issued_fresh] at next
    rcases (mem_states_primitive mark).mp member with rfl | rfl
    · simp only
      omega
    · simp only
      omega

theorem within_concatenate {high : Nat} (first : A.Within low middle)
    (second : B.Within middle high) : (concatenate A B).Within low high := by
  have left := first.lt
  have right := second.lt
  apply Automaton.Within.of_states (wellFormed_concatenate first.wellFormed second.wellFormed)
  intro s member
  rcases (mem_states_concatenate first.wellFormed second.wellFormed).mp member with own | own
  · have lower := first.lower s own
    have upper := first.upper s own
    omega
  · have lower := second.lower s own
    have upper := second.upper s own
    omega

theorem within_union (first : A.Within low middle) (second : B.Within middle names.issued.toNat)
    (room : names.HasRoom 1) : (union A B names).1.Within low (union A B names).2.issued.toNat := by
  have left := first.lt
  have right := second.lt
  rw [toNat_issued_union room]
  apply Automaton.Within.of_states (wellFormed_union first.wellFormed second.wellFormed names)
  intro s member
  rcases (mem_states_union first.wellFormed second.wellFormed).mp member with rfl | own | own
  · simp only
    omega
  · have lower := first.lower s own
    have upper := first.upper s own
    omega
  · have lower := second.lower s own
    have upper := second.upper s own
    omega

theorem within_repetition (operand : A.Within low names.issued.toNat) (room : names.HasRoom 1) :
    (repetition A names).1.Within low (repetition A names).2.issued.toNat := by
  have below := operand.lt
  rw [toNat_issued_repetition room]
  apply Automaton.Within.of_states (wellFormed_repetition operand.wellFormed names)
  intro s member
  rcases (mem_states_repetition operand.wellFormed).mp member with rfl | own
  · simp only
    omega
  · have lower := operand.lower s own
    have upper := operand.upper s own
    omega

end Ranges

end Fragment

end Thompson
