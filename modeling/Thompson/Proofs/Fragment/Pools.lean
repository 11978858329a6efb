import Mathlib.Data.List.Perm.Basic
import Thompson.Proofs.Fragment.Trim

/-!
Fragments made side by side from one supply. The value of an operation has the states of its
operands and those whose names it takes, and no others; so in whatever order fragments are
made of one another, those at hand share no state, and together they have every name that was
handed out, unless a fragment was given up.
-/
namespace Thompson

def Automaton.Apart (A B : Automaton) : Prop := ∀ s ∈ A.states, s ∉ B.states

instance (A B : Automaton) : Decidable (A.Apart B) :=
  inferInstanceAs (Decidable (∀ s ∈ A.states.toList, s ∉ B.states))

theorem Automaton.Apart.symm {A B : Automaton} (h : A.Apart B) : B.Apart A :=
  fun s inSecond inFirst => h s inFirst inSecond

namespace NameSupply

variable {names later : NameSupply} {s : State}

/-- The name is handed out behind the one supply and before the other. -/
def Between (names later : NameSupply) (s : State) : Prop :=
  names.issued.toNat ≤ s.index.toNat ∧ s.index.toNat < later.issued.toNat

theorem between_self : ¬names.Between names s := by
  rintro ⟨lower, upper⟩
  omega

theorem between_fresh (room : names.HasRoom 1) :
    names.Between names.fresh.2 s ↔ s = ⟨names.issued⟩ := by
  unfold Between
  rw [toNat_issued_fresh room]
  constructor
  · rintro ⟨lower, upper⟩
    have same : s.index = names.issued := UInt32.toNat_inj.mp (by omega)
    rw [← same]
  · rintro rfl
    exact ⟨Nat.le_refl _, Nat.lt_succ_self _⟩

theorem between_fresh_fresh (room : names.HasRoom 2) :
    names.Between names.fresh.2.fresh.2 s ↔
      s = ⟨names.issued⟩ ∨ s = ⟨names.issued + 1⟩ := by
  have first := @between_fresh names s (room.mono (Nat.le_succ 1))
  have second := @between_fresh names.fresh.2 s room.fresh
  have next := toNat_issued_fresh (room.mono (Nat.le_succ 1))
  have last := toNat_issued_fresh room.fresh
  rw [issued_fresh] at second
  rw [← first, ← second]
  unfold Between
  omega

end NameSupply

namespace Pool

variable {names later : NameSupply} {live rest operands dropped : List Automaton}
  {first second operand value : Automaton} {c : Char}

/-- What an operation makes of its operands while it takes the names up to a later supply. -/
structure Makes (names later : NameSupply) (operands : List Automaton) (value : Automaton) :
    Prop where
  trim : value.Trim
  forward : names.issued.toNat ≤ later.issued.toNat
  states : ∀ s, s ∈ value.states ↔ (∃ A ∈ operands, s ∈ A.states) ∨ names.Between later s

theorem makes_empty (room : names.HasRoom 2) :
    Makes names (Fragment.empty names).2 [] (Fragment.empty names).1 where
  trim := Fragment.trim_empty (room.mono (Nat.le_succ 1))
  forward := by
    rw [Fragment.toNat_issued_empty room]
    omega
  states s := by
    have taken := @NameSupply.between_fresh_fresh names s room
    rw [Fragment.mem_states_empty, ← taken]
    simp [Fragment.empty]

theorem makes_primitive (room : names.HasRoom (primitiveNames c)) :
    Makes names (Fragment.primitive c names).2 [] (Fragment.primitive c names).1 where
  trim := Fragment.trim_primitive room
  forward := by
    rw [issued_primitive c room]
    omega
  states s := by
    by_cases mark : c = emptyMark
    · subst c
      have taken := @NameSupply.between_fresh names s room
      rw [Fragment.mem_states_primitive_mark, ← taken]
      simp [Fragment.primitive_mark]
    · have count : primitiveNames c = 2 := if_neg mark
      rw [count] at room
      have taken := @NameSupply.between_fresh_fresh names s room
      rw [Fragment.mem_states_primitive mark, ← taken]
      simp [Fragment.primitive_letter mark]

theorem makes_concatenate (left : first.Trim) (right : second.Trim) (apart : first.Apart second) :
    Makes names names [first, second] (Fragment.concatenate first second) where
  trim := Fragment.trim_concatenate left right apart.symm
  forward := Nat.le_refl _
  states s := by
    rw [Fragment.mem_states_concatenate left.wellFormed right.wellFormed]
    simp [NameSupply.between_self]

theorem makes_union (left : first.Trim) (right : second.Trim)
    (newFirst : ⟨names.issued⟩ ∉ first.states) (newSecond : ⟨names.issued⟩ ∉ second.states)
    (room : names.HasRoom 1) :
    Makes names (Fragment.union first second names).2 [first, second]
      (Fragment.union first second names).1 where
  trim := Fragment.trim_union left right newFirst newSecond
  forward := by
    rw [Fragment.toNat_issued_union room]
    omega
  states s := by
    have taken : names.Between (Fragment.union first second names).2 s ↔ _ :=
      NameSupply.between_fresh room
    rw [Fragment.mem_states_union left.wellFormed right.wellFormed, taken]
    simp [or_comm]

theorem makes_repetition (trim : operand.Trim) (new : ⟨names.issued⟩ ∉ operand.states)
    (room : names.HasRoom 1) :
    Makes names (Fragment.repetition operand names).2 [operand]
      (Fragment.repetition operand names).1 where
  trim := Fragment.trim_repetition trim new
  forward := by
    rw [Fragment.toNat_issued_repetition room]
    omega
  states s := by
    have taken : names.Between (Fragment.repetition operand names).2 s ↔ _ :=
      NameSupply.between_fresh room
    rw [Fragment.mem_states_repetition trim.wellFormed, taken]
    simp [or_comm]

/-- Every fragment at hand is trim, and each has names of its own. -/
structure Sound (p : Pool) : Prop where
  trim : ∀ A ∈ p.live, A.Trim
  issued : ∀ A ∈ p.live, ∀ s ∈ A.states, s.index.toNat < p.names.issued.toNat
  apart : p.live.Pairwise Automaton.Apart
  owned : p.dropped = [] → ∀ s : State, s.index.toNat < p.names.issued.toNat →
    ∃ A ∈ p.live, s ∈ A.states

theorem sound_start : Sound ⟨⟨0⟩, [], []⟩ where
  trim _ member := absurd member List.not_mem_nil
  issued _ member := absurd member List.not_mem_nil
  apart := .nil
  owned _ _ below := absurd below (Nat.not_lt_zero _)

namespace Sound

theorem perm (h : Sound ⟨names, live, dropped⟩) (order : live.Perm rest) :
    Sound ⟨names, rest, dropped⟩ where
  trim A hA := h.trim A (order.mem_iff.mpr hA)
  issued A hA := h.issued A (order.mem_iff.mpr hA)
  apart := (order.pairwise_iff Automaton.Apart.symm).mp h.apart
  owned kept s below := by
    obtain ⟨A, hA, member⟩ := h.owned kept s below
    exact ⟨A, order.mem_iff.mp hA, member⟩

theorem next_not_mem (h : Sound ⟨names, live, dropped⟩) {A : Automaton} (hA : A ∈ live) :
    (⟨names.issued⟩ : State) ∉ A.states := by
  intro member
  exact absurd (h.issued A hA _ member) (Nat.lt_irrefl _)

theorem drop (h : Sound ⟨names, operand :: rest, dropped⟩) :
    Sound ⟨names, rest, operand :: dropped⟩ where
  trim A hA := h.trim A (List.mem_cons_of_mem _ hA)
  issued A hA := h.issued A (List.mem_cons_of_mem _ hA)
  apart := (List.pairwise_cons.mp h.apart).2
  owned kept := absurd kept (List.cons_ne_nil _ _)

theorem countP_contains_le_one (h : Sound ⟨names, live, dropped⟩) (s : State) :
    live.countP (·.contains s) ≤ 1 := by
  have apart := h.apart
  clear h
  induction live with
  | nil => exact Nat.zero_le 1
  | cons A live ih =>
    obtain ⟨others, later⟩ := List.pairwise_cons.mp apart
    by_cases member : s ∈ A.states
    · have none : live.countP (·.contains s) = 0 := by
        refine List.countP_eq_zero.mpr fun B hB contained => ?_
        exact others B hB s member (of_decide_eq_true contained)
      rw [List.countP_cons, none]
      split
      · exact Nat.le_refl 1
      · exact Nat.zero_le 1
    · rw [List.countP_cons_of_neg (by simpa [Automaton.contains] using member)]
      exact ih later

end Sound

/-- A value takes the place of its operands, with their names and with the new ones. -/
theorem Makes.sound (made : Makes names later operands value)
    (h : Sound ⟨names, operands ++ rest, dropped⟩) : Sound ⟨later, value :: rest, dropped⟩ := by
  obtain ⟨_, restApart, between⟩ := List.pairwise_append.mp h.apart
  constructor
  · intro A hA
    rcases List.mem_cons.mp hA with rfl | old
    · exact made.trim
    · exact h.trim A (List.mem_append_right _ old)
  · intro A hA s member
    have forward := made.forward
    rcases List.mem_cons.mp hA with rfl | old
    · rcases (made.states s).mp member with ⟨B, hB, inside⟩ | new
      · have below := h.issued B (List.mem_append_left _ hB) s inside
        simp only at below ⊢
        omega
      · exact new.2
    · have below := h.issued A (List.mem_append_right _ old) s member
      simp only at below ⊢
      omega
  · refine List.pairwise_cons.mpr ⟨?_, restApart⟩
    intro A hA s member inside
    rcases (made.states s).mp member with ⟨B, hB, own⟩ | new
    · exact between B hB A hA s own inside
    · have below := h.issued A (List.mem_append_right _ hA) s inside
      have above := new.1
      simp only at below
      omega
  · intro kept s below
    by_cases old : s.index.toNat < names.issued.toNat
    · obtain ⟨A, hA, member⟩ := h.owned kept s old
      rcases List.mem_append.mp hA with operand | other
      · exact ⟨value, List.mem_cons_self, (made.states s).mpr (Or.inl ⟨A, operand, member⟩)⟩
      · exact ⟨A, List.mem_cons_of_mem _ other, member⟩
    · have new : names.Between later s := ⟨Nat.le_of_not_lt old, below⟩
      exact ⟨value, List.mem_cons_self, (made.states s).mpr (Or.inr new)⟩

theorem Reachable.sound {p : Pool} (reached : p.Reachable) : p.Sound := by
  induction reached with
  | start => exact sound_start
  | empty before room ih => exact (makes_empty room).sound ih
  | primitive c before room ih => exact (makes_primitive room).sound ih
  | concatenate before order ih =>
    have pool := ih.perm order
    have left := pool.trim _ List.mem_cons_self
    have right := pool.trim _ (List.mem_cons_of_mem _ List.mem_cons_self)
    have apart := List.rel_of_pairwise_cons pool.apart List.mem_cons_self
    exact (makes_concatenate left right apart).sound pool
  | union before order room ih =>
    have pool := ih.perm order
    have left := pool.trim _ List.mem_cons_self
    have right := pool.trim _ (List.mem_cons_of_mem _ List.mem_cons_self)
    have newLeft := pool.next_not_mem List.mem_cons_self
    have newRight := pool.next_not_mem (List.mem_cons_of_mem _ List.mem_cons_self)
    exact (makes_union left right newLeft newRight room).sound pool
  | repetition before order room ih =>
    have pool := ih.perm order
    have trim := pool.trim _ List.mem_cons_self
    have new := pool.next_not_mem List.mem_cons_self
    exact (makes_repetition trim new room).sound pool
  | drop before order ih => exact (ih.perm order).drop

/-- At every moment no two fragments share a state, and a name that was handed out is that of a
    state of one fragment at most, and of exactly one as long as none was given up. Each
    fragment has a final state and no edge into its start, and every state of it lies on a way
    from the start to a final state. -/
theorem reachable_fragments_apart_and_trim {p : Pool} (reached : p.Reachable) :
    p.live.Pairwise Automaton.Apart ∧
    (∀ s : State, s.index < p.names.issued → p.live.countP (·.contains s) ≤ 1 ∧
      (p.dropped = [] → p.live.countP (·.contains s) = 1)) ∧
    ∀ A ∈ p.live, (∀ s ∈ A.states, s.index < p.names.issued) ∧ (∃ f, f ∈ A.finals) ∧
      (∀ e ∈ A.edges, e.target ≠ A.start) ∧ (∀ s ∈ A.states, A.Leads A.start s) ∧
      ∀ s ∈ A.states, ∃ f ∈ A.finals, A.Leads s f := by
  have sound := reached.sound
  refine ⟨sound.apart, ?_, ?_⟩
  · intro s below
    have few := sound.countP_contains_le_one s
    refine ⟨few, fun kept => ?_⟩
    obtain ⟨A, hA, member⟩ := sound.owned kept s (UInt32.lt_iff_toNat_lt.mp below)
    have some : 0 < p.live.countP (·.contains s) :=
      List.countP_pos_iff.mpr ⟨A, hA, decide_eq_true member⟩
    omega
  · intro A hA
    have trim := sound.trim A hA
    obtain ⟨f, final, _⟩ := trim.exists_final
    refine ⟨fun s member => UInt32.lt_iff_toNat_lt.mpr (sound.issued A hA s member), ⟨f, final⟩,
      trim.noReturn, trim.reachable, trim.productive⟩

/-- A repetition of a choice, and a letter that is still by itself. -/
theorem reachable_fragments_repeated_choice : ∃ p : Pool, p.Reachable ∧ p.live.length = 2 ∧
    p.dropped = [] ∧ p.names = ⟨7⟩ ∧
    p.live.Pairwise Automaton.Apart ∧
    (∀ s : State, s.index < p.names.issued → p.live.countP (·.contains s) ≤ 1 ∧
      (p.dropped = [] → p.live.countP (·.contains s) = 1)) ∧
    ∀ A ∈ p.live, (∀ s ∈ A.states, s.index < p.names.issued) ∧ (∃ f, f ∈ A.finals) ∧
      (∀ e ∈ A.edges, e.target ≠ A.start) ∧ (∀ s ∈ A.states, A.Leads A.start s) ∧
      ∀ s ∈ A.states, ∃ f ∈ A.finals, A.Leads s f := by
  have letter := Reachable.start.primitive 'a' (by decide)
  have choice := (letter.primitive emptyMark (by decide)).union (.refl _) (by decide)
  have repeated := choice.repetition (.refl _) (by decide)
  have beside := repeated.primitive 'b' (by decide)
  exact ⟨_, beside, rfl, rfl, rfl, reachable_fragments_apart_and_trim beside⟩

end Pool

end Thompson
