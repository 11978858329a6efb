import Thompson.Proofs.Automaton.Paths
import Thompson.Proofs.Fragment.Names

/-!
What fragments recognize. Operands may have any shape: loops through the start, edges out
of final states, no final state at all. Two operands must not share a state, and the new
start of a union or a repetition must not be a state of an operand; then the paths of the
result are cut at the edges that the construction adds, and the pieces are paths of the
operands.
-/
namespace Thompson.Fragment

open Automaton (Path)

variable {A B : Automaton} {names : NameSupply} {w : List Char}

theorem recognizes_empty (room : names.HasRoom 1) : (empty names).1.Recognizes w ↔ w = [] :=
  Automaton.recognizes_of_one_edge (l := .epsilon) (fun _ => mem_edges_empty)
    (fun _ => mem_finals_empty) (issued_ne_next room)

theorem recognizes_primitive {c : Char} (letter : c ≠ emptyMark) (room : names.HasRoom 1) :
    (primitive c names).1.Recognizes w ↔ w = [c] := by
  refine Automaton.recognizes_of_one_edge (l := .symbol c) ?_ (fun _ => mem_finals_primitive letter) ?_
  · intro e
    rw [mem_edges_primitive letter, start_primitive]
  · rw [start_primitive]
    exact issued_ne_next room

theorem recognizes_primitive_mark : (primitive emptyMark names).1.Recognizes w ↔ w = [] := by
  rw [primitive_mark]
  constructor
  · intro ⟨f, _, path⟩
    have stuck := path.eq_nil_of_no_edge (by simp)
    exact stuck.2
  · intro nothing
    subst w
    exact ⟨⟨names.issued⟩, by simp, .nil _⟩

section Concatenation

/-- A path from the first operand into the second goes over at one added edge. -/
theorem path_concatenate_split (first : A.WellFormed) (second : B.WellFormed)
    (disjoint : ∀ s ∈ B.states, s ∉ A.states) {s t : State}
    (path : Path (concatenate A B) s w t) (inFirst : s ∈ A.states) (inSecond : t ∈ B.states) :
    ∃ u v, w = u ++ v ∧ (∃ f ∈ A.finals, Path A s u f) ∧ Path B B.start v t := by
  induction path using Path.edge_induction with
  | nil s => exact absurd inFirst (disjoint s inSecond)
  | @cons s l m w t edge tail ih =>
    rcases mem_edges_concatenate.mp edge with (own | ⟨f, final, across⟩) | other
    · obtain ⟨u, v, rfl, ⟨f, final, before⟩, after⟩ := ih (first.target_mem _ own) inSecond
      refine ⟨l.word ++ u, v, ?_, ⟨f, final, .cons own before⟩, after⟩
      rw [List.append_assoc]
    · obtain ⟨rfl, rfl, rfl⟩ := Edge.mk.inj across
      refine ⟨[], w, rfl, ⟨s, final, .nil s⟩, ?_⟩
      refine Path.of_closed (· ∈ B.states) ?_ tail second.start_mem
      intro e he source
      rcases mem_edges_concatenate.mp he with (own | ⟨f, final, rfl⟩) | other
      · exact absurd (first.source_mem e own) (disjoint _ source)
      · exact absurd (first.finals_subset f final) (disjoint _ source)
      · exact ⟨other, second.target_mem e other⟩
    · exact absurd inFirst (disjoint s (second.source_mem _ other))

theorem recognizes_concatenate (first : A.WellFormed) (second : B.WellFormed)
    (disjoint : ∀ s ∈ B.states, s ∉ A.states) :
    (concatenate A B).Recognizes w ↔ ∃ u v, w = u ++ v ∧ A.Recognizes u ∧ B.Recognizes v := by
  constructor
  · intro ⟨t, final, path⟩
    rw [mem_finals_concatenate] at final
    obtain ⟨u, v, split, before, after⟩ := path_concatenate_split first second disjoint path
      first.start_mem (second.finals_subset t final)
    exact ⟨u, v, split, before, t, final, after⟩
  · intro ⟨u, v, split, ⟨f, across, before⟩, t, final, after⟩
    subst w
    refine ⟨t, mem_finals_concatenate.mpr final, ?_⟩
    have own : Path (concatenate A B) A.start u f := before.mono fun _ => edge_concatenate_left
    have other : Path (concatenate A B) B.start v t := after.mono fun _ => edge_concatenate_right
    exact own.append (.epsilon (edge_concatenate_across across) other)

end Concatenation

section Union

theorem path_union_inside {C D : Automaton} (own : C.WellFormed) (other : D.WellFormed)
    (disjoint : ∀ s ∈ D.states, s ∉ C.states) (new : ⟨names.issued⟩ ∉ C.states)
    (edges : ∀ e ∈ (union A B names).1.edges,
      e ∈ C.edges ∨ e ∈ D.edges ∨ e.source = ⟨names.issued⟩) {s t : State}
    (path : Path (union A B names).1 s w t) (start : s ∈ C.states) :
    Path C s w t ∧ t ∈ C.states := by
  have inside : ∀ e ∈ (union A B names).1.edges, e.source ∈ C.states →
      e ∈ C.edges ∧ e.target ∈ C.states := by
    intro e he source
    rcases edges e he with mine | theirs | entry
    · exact ⟨mine, own.target_mem e mine⟩
    · exact absurd source (disjoint _ (other.source_mem e theirs))
    · exact absurd (entry ▸ source) new
  exact ⟨path.of_closed _ inside start, path.stays (fun e he source => (inside e he source).2) start⟩

theorem recognizes_union (first : A.WellFormed) (second : B.WellFormed)
    (disjoint : ∀ s ∈ B.states, s ∉ A.states) (newFirst : ⟨names.issued⟩ ∉ A.states)
    (newSecond : ⟨names.issued⟩ ∉ B.states) :
    (union A B names).1.Recognizes w ↔ A.Recognizes w ∨ B.Recognizes w := by
  constructor
  · intro ⟨t, final, path⟩
    rw [mem_finals_union] at final
    rw [start_union] at path
    have edges : ∀ e ∈ (union A B names).1.edges,
        e ∈ A.edges ∨ e ∈ B.edges ∨ e.source = ⟨names.issued⟩ := by
      intro e he
      rcases mem_edges_union.mp he with ((left | right) | rfl) | rfl
      · exact Or.inl left
      · exact Or.inr (Or.inl right)
      · exact Or.inr (Or.inr rfl)
      · exact Or.inr (Or.inr rfl)
    rcases path.nil_or_cons with ⟨rfl, _⟩ | ⟨l, m, v, edge, tail, rfl⟩
    · rcases final with final | final
      · exact absurd (first.finals_subset _ final) newFirst
      · exact absurd (second.finals_subset _ final) newSecond
    · rcases mem_edges_union.mp edge with ((own | other) | left) | right
      · exact absurd (first.source_mem _ own) newFirst
      · exact absurd (second.source_mem _ other) newSecond
      · obtain ⟨_, rfl, rfl⟩ := Edge.mk.inj left
        have inFirst := path_union_inside first second disjoint newFirst edges tail first.start_mem
        have own := final.resolve_right fun other =>
          disjoint t (second.finals_subset t other) inFirst.2
        exact Or.inl ⟨t, own, inFirst.1⟩
      · obtain ⟨_, rfl, rfl⟩ := Edge.mk.inj right
        have inSecond := path_union_inside second first (fun s left right => disjoint s right left)
          newSecond (fun e he => or_left_comm.mp (edges e he)) tail second.start_mem
        have own := final.resolve_left fun other =>
          disjoint t inSecond.2 (first.finals_subset t other)
        exact Or.inr ⟨t, own, inSecond.1⟩
  · intro either
    rcases either with ⟨t, final, path⟩ | ⟨t, final, path⟩
    · have own : Path (union A B names).1 A.start w t := path.mono fun _ => edge_union_left
      exact ⟨t, mem_finals_union.mpr (Or.inl final), .epsilon edge_union_to_left own⟩
    · have own : Path (union A B names).1 B.start w t := path.mono fun _ => edge_union_right
      exact ⟨t, mem_finals_union.mpr (Or.inr final), .epsilon edge_union_to_right own⟩

end Union

section Repetition

/-- A path of a repetition is cut wherever it goes back to the old start. -/
theorem path_repetition_split (operand : A.WellFormed) (new : ⟨names.issued⟩ ∉ A.states)
    {s t : State} (path : Path (repetition A names).1 s w t) (start : s ∈ A.states)
    (final : t ∈ A.finals) :
    ∃ u vs, w = u ++ List.flatten vs ∧ (∃ f ∈ A.finals, Path A s u f) ∧
      ∀ v ∈ vs, A.Recognizes v := by
  induction path using Path.edge_induction with
  | nil s => exact ⟨[], [], rfl, ⟨s, final, .nil s⟩, by simp⟩
  | @cons s l m w t edge tail ih =>
    rcases mem_edges_repetition.mp edge with (own | ⟨f, back, across⟩) | fromNew
    · obtain ⟨u, vs, rfl, ⟨f, last, piece⟩, pieces⟩ := ih (operand.target_mem _ own) final
      refine ⟨l.word ++ u, vs, ?_, ⟨f, last, .cons own piece⟩, pieces⟩
      rw [List.append_assoc]
    · obtain ⟨rfl, rfl, rfl⟩ := Edge.mk.inj across
      obtain ⟨u, vs, rfl, piece, pieces⟩ := ih operand.start_mem final
      refine ⟨[], u :: vs, rfl, ⟨s, back, .nil s⟩, ?_⟩
      intro v member
      rcases List.mem_cons.mp member with rfl | later
      · exact piece
      · exact pieces v later
    · obtain ⟨rfl, _, _⟩ := Edge.mk.inj fromNew
      exact absurd start new

theorem path_repetition_flatten (names : NameSupply) (v : List Char) (vs : List (List Char))
    (pieces : ∀ u ∈ v :: vs, A.Recognizes u) :
    ∃ f ∈ A.finals, Path (repetition A names).1 A.start (v ++ vs.flatten) f := by
  have own : ∀ e ∈ A.edges, e ∈ (repetition A names).1.edges := fun _ => edge_repetition_inside
  induction vs generalizing v with
  | nil =>
    obtain ⟨f, final, path⟩ := pieces v (by simp)
    refine ⟨f, final, ?_⟩
    rw [List.flatten_nil, List.append_nil]
    exact path.mono own
  | cons u vs ih =>
    obtain ⟨f, final, path⟩ := pieces v (by simp)
    obtain ⟨g, last, rest⟩ := ih u (fun x hx => pieces x (List.mem_cons_of_mem v hx))
    exact ⟨g, last, (path.mono own).append (.epsilon (edge_repetition_back final) rest)⟩

theorem recognizes_repetition (operand : A.WellFormed) (new : ⟨names.issued⟩ ∉ A.states) :
    (repetition A names).1.Recognizes w ↔
      ∃ vs : List (List Char), w = vs.flatten ∧ ∀ v ∈ vs, A.Recognizes v := by
  constructor
  · intro ⟨t, final, path⟩
    rw [start_repetition] at path
    have noWayBack : ∀ e ∈ (repetition A names).1.edges, e.target ≠ ⟨names.issued⟩ :=
      fun _ => target_repetition_ne operand new
    rcases path.nil_or_cons with ⟨_, rfl⟩ | ⟨l, m, v, edge, tail, rfl⟩
    · exact ⟨[], rfl, by simp⟩
    · rcases mem_edges_repetition.mp edge with (own | ⟨f, back, across⟩) | first
      · exact absurd (operand.source_mem _ own) new
      · obtain ⟨rfl, _, _⟩ := Edge.mk.inj across
        exact absurd (operand.finals_subset _ back) new
      · obtain ⟨_, rfl, rfl⟩ := Edge.mk.inj first
        have away : t ≠ ⟨names.issued⟩ :=
          @Path.stays _ (· ≠ ⟨names.issued⟩) (fun e he _ => noWayBack e he) _ _ _ tail
            (noWayBack _ edge)
        have last : t ∈ A.finals := (mem_finals_repetition.mp final).resolve_left away
        obtain ⟨u, vs, rfl, piece, pieces⟩ :=
          path_repetition_split operand new tail operand.start_mem last
        refine ⟨u :: vs, rfl, ?_⟩
        intro x member
        rcases List.mem_cons.mp member with rfl | later
        · exact piece
        · exact pieces x later
  · intro ⟨vs, spelled, pieces⟩
    subst w
    cases vs with
    | nil => exact ⟨⟨names.issued⟩, mem_finals_repetition.mpr (Or.inl rfl), .nil _⟩
    | cons v vs =>
      obtain ⟨f, final, path⟩ := path_repetition_flatten names v vs pieces
      exact ⟨f, mem_finals_repetition.mpr (Or.inr final), .epsilon edge_repetition_first path⟩

end Repetition

end Thompson.Fragment
