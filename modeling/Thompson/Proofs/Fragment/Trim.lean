import Thompson.Proofs.Automaton.Paths
import Thompson.Proofs.Fragment.Names

/-!
Fragments without dead weight. In a trim automaton every state lies on a way from the start
to a final state, and nothing leads back into the start. The constructions keep this: what
they add leads from the new start to the old ones, or from final states on; and a start that
becomes an inner state hands its part to one that has no edge into it.
-/
namespace Thompson

namespace Automaton

variable {A B : Automaton} {s t u : State} {l : Label}

def Leads (A : Automaton) (s t : State) : Prop := ∃ w, Path A s w t

theorem Leads.refl (A : Automaton) (s : State) : A.Leads s s := ⟨[], .nil s⟩

theorem Leads.edge (edge : ⟨s, l, t⟩ ∈ A.edges) : A.Leads s t := Path.of_edge edge

theorem Leads.trans (first : A.Leads s t) (second : A.Leads t u) : A.Leads s u := by
  obtain ⟨v, before⟩ := first
  obtain ⟨w, after⟩ := second
  exact ⟨v ++ w, before.append after⟩

theorem Leads.mono (more : ∀ e ∈ A.edges, e ∈ B.edges) (leads : A.Leads s t) : B.Leads s t := by
  obtain ⟨w, path⟩ := leads
  exact ⟨w, path.mono more⟩

structure Trim (A : Automaton) : Prop where
  wellFormed : A.WellFormed
  noReturn : ∀ e ∈ A.edges, e.target ≠ A.start
  reachable : ∀ s ∈ A.states, A.Leads A.start s
  productive : ∀ s ∈ A.states, ∃ f ∈ A.finals, A.Leads s f

theorem Trim.exists_final (h : A.Trim) : ∃ f ∈ A.finals, A.Leads A.start f :=
  h.productive A.start h.wellFormed.start_mem

theorem Leads.addSymbols {s t : State} (leads : A.Leads s t) (cs : List Char) :
    (A.addSymbols cs).Leads s t := by
  apply leads.mono
  intro e he
  rwa [edges_addSymbols]

theorem Trim.addSymbols (trim : A.Trim) (cs : List Char) : (A.addSymbols cs).Trim where
  wellFormed := trim.wellFormed.addSymbols cs
  noReturn := trim.noReturn
  reachable s hs := (trim.reachable s hs).addSymbols cs
  productive s hs := by
    obtain ⟨f, final, leads⟩ := trim.productive s hs
    exact ⟨f, final, leads.addSymbols cs⟩

theorem Trim.of_one_edge (wellFormed : A.WellFormed)
    (states : ∀ s, s ∈ A.states ↔ s = A.start ∨ s = t)
    (edges : ∀ e, e ∈ A.edges ↔ e = ⟨A.start, l, t⟩) (finals : ∀ s, s ∈ A.finals ↔ s = t)
    (different : A.start ≠ t) : A.Trim := by
  have across : A.Leads A.start t := .edge ((edges _).mpr rfl)
  have final : t ∈ A.finals := (finals t).mpr rfl
  refine ⟨wellFormed, ?_, ?_, ?_⟩
  · intro e he
    rw [(edges e).mp he]
    exact different.symm
  · intro s hs
    rcases (states s).mp hs with rfl | rfl
    · exact .refl A _
    · exact across
  · intro s hs
    rcases (states s).mp hs with rfl | rfl
    · exact ⟨t, final, across⟩
    · exact ⟨s, final, .refl A s⟩

end Automaton

namespace Fragment

open Automaton (Leads Trim)

variable {A B : Automaton} {names : NameSupply}

theorem trim_empty (room : names.HasRoom 1) : (empty names).1.Trim :=
  .of_one_edge (wellFormed_empty names) (fun _ => mem_states_empty) (fun _ => mem_edges_empty)
    (fun _ => mem_finals_empty) (issued_ne_next room)

theorem trim_primitive_letter {c : Char} (letter : c ≠ emptyMark) (room : names.HasRoom 1) :
    (primitive c names).1.Trim := by
  have start : (primitive c names).1.start = ⟨names.issued⟩ := start_primitive
  refine .of_one_edge (l := .symbol c) (t := ⟨names.issued + 1⟩) (wellFormed_primitive c names)
    ?_ ?_ (fun _ => mem_finals_primitive letter) ?_
  · intro s
    rw [mem_states_primitive letter, start]
  · intro e
    rw [mem_edges_primitive letter, start]
  · rw [start]
    exact issued_ne_next room

theorem trim_primitive_mark : (primitive emptyMark names).1.Trim := by
  have only : ∀ s ∈ (primitive emptyMark names).1.states, s = ⟨names.issued⟩ :=
    fun s hs => mem_states_primitive_mark.mp hs
  refine ⟨wellFormed_primitive emptyMark names, ?_, ?_, ?_⟩
  · intro e he
    simp [primitive_mark] at he
  · intro s hs
    rw [only s hs, start_primitive]
    exact .refl _ _
  · intro s hs
    rw [only s hs]
    exact ⟨⟨names.issued⟩, by simp [primitive_mark], .refl _ _⟩

theorem trim_primitive {c : Char} (room : names.HasRoom (Pool.primitiveNames c)) :
    (primitive c names).1.Trim := by
  by_cases mark : c = emptyMark
  · rw [mark]
    exact trim_primitive_mark
  · have count : Pool.primitiveNames c = 2 := if_neg mark
    rw [count] at room
    exact trim_primitive_letter mark (room.mono (Nat.le_succ 1))

theorem trim_concatenate (first : A.Trim) (second : B.Trim)
    (disjoint : ∀ s ∈ B.states, s ∉ A.states) : (concatenate A B).Trim := by
  have own : ∀ e ∈ A.edges, e ∈ (concatenate A B).edges := fun _ => edge_concatenate_left
  have other : ∀ e ∈ B.edges, e ∈ (concatenate A B).edges := fun _ => edge_concatenate_right
  have across : ∀ f ∈ A.finals, (concatenate A B).Leads f B.start := by
    intro f final
    exact .edge (edge_concatenate_across final)
  have inside := @mem_states_concatenate A B first.wellFormed second.wellFormed
  refine ⟨wellFormed_concatenate first.wellFormed second.wellFormed, ?_, ?_, ?_⟩
  · intro e he
    have apart : ∀ s ∈ B.states, s ≠ A.start := by
      intro s hs same
      exact disjoint s hs (same ▸ first.wellFormed.start_mem)
    rcases mem_edges_concatenate.mp he with (mine | ⟨f, final, rfl⟩) | theirs
    · exact first.noReturn e mine
    · exact apart _ second.wellFormed.start_mem
    · exact apart _ (second.wellFormed.target_mem e theirs)
  · intro s hs
    rcases inside.mp hs with left | right
    · exact (first.reachable s left).mono own
    · obtain ⟨f, final, leads⟩ := first.exists_final
      exact (leads.mono own).trans ((across f final).trans ((second.reachable s right).mono other))
  · intro s hs
    rcases inside.mp hs with left | right
    · obtain ⟨f, final, leads⟩ := first.productive s left
      obtain ⟨g, last, rest⟩ := second.exists_final
      exact ⟨g, mem_finals_concatenate.mpr last,
        (leads.mono own).trans ((across f final).trans (rest.mono other))⟩
    · obtain ⟨g, last, rest⟩ := second.productive s right
      exact ⟨g, mem_finals_concatenate.mpr last, rest.mono other⟩

theorem trim_union (first : A.Trim) (second : B.Trim) (newFirst : ⟨names.issued⟩ ∉ A.states)
    (newSecond : ⟨names.issued⟩ ∉ B.states) : (union A B names).1.Trim := by
  have left : ∀ e ∈ A.edges, e ∈ (union A B names).1.edges := fun _ => edge_union_left
  have right : ∀ e ∈ B.edges, e ∈ (union A B names).1.edges := fun _ => edge_union_right
  have toLeft : (union A B names).1.Leads ⟨names.issued⟩ A.start := .edge edge_union_to_left
  have toRight : (union A B names).1.Leads ⟨names.issued⟩ B.start := .edge edge_union_to_right
  have inside := @mem_states_union A B names first.wellFormed second.wellFormed
  refine ⟨wellFormed_union first.wellFormed second.wellFormed names, ?_, ?_, ?_⟩
  · intro e he
    rw [start_union]
    rcases mem_edges_union.mp he with ((mine | theirs) | rfl) | rfl
    · exact ne_of_mem_of_not_mem (first.wellFormed.target_mem e mine) newFirst
    · exact ne_of_mem_of_not_mem (second.wellFormed.target_mem e theirs) newSecond
    · exact ne_of_mem_of_not_mem first.wellFormed.start_mem newFirst
    · exact ne_of_mem_of_not_mem second.wellFormed.start_mem newSecond
  · intro s hs
    rw [start_union]
    rcases inside.mp hs with rfl | mine | theirs
    · exact .refl _ _
    · exact toLeft.trans ((first.reachable s mine).mono left)
    · exact toRight.trans ((second.reachable s theirs).mono right)
  · intro s hs
    rcases inside.mp hs with rfl | mine | theirs
    · obtain ⟨f, final, leads⟩ := first.exists_final
      exact ⟨f, mem_finals_union.mpr (Or.inl final), toLeft.trans (leads.mono left)⟩
    · obtain ⟨f, final, leads⟩ := first.productive s mine
      exact ⟨f, mem_finals_union.mpr (Or.inl final), leads.mono left⟩
    · obtain ⟨f, final, leads⟩ := second.productive s theirs
      exact ⟨f, mem_finals_union.mpr (Or.inr final), leads.mono right⟩

theorem trim_repetition (operand : A.Trim) (new : ⟨names.issued⟩ ∉ A.states) :
    (repetition A names).1.Trim := by
  have own : ∀ e ∈ A.edges, e ∈ (repetition A names).1.edges := fun _ => edge_repetition_inside
  have toOld : (repetition A names).1.Leads ⟨names.issued⟩ A.start := .edge edge_repetition_first
  have inside := @mem_states_repetition A names operand.wellFormed
  refine ⟨wellFormed_repetition operand.wellFormed names, ?_, ?_, ?_⟩
  · intro e he
    rw [start_repetition]
    exact target_repetition_ne operand.wellFormed new he
  · intro s hs
    rw [start_repetition]
    rcases inside.mp hs with rfl | mine
    · exact .refl _ _
    · exact toOld.trans ((operand.reachable s mine).mono own)
  · intro s hs
    rcases inside.mp hs with rfl | mine
    · exact ⟨⟨names.issued⟩, mem_finals_repetition.mpr (Or.inl rfl), .refl _ _⟩
    · obtain ⟨f, final, leads⟩ := operand.productive s mine
      exact ⟨f, mem_finals_repetition.mpr (Or.inr final), leads.mono own⟩

end Fragment

end Thompson
