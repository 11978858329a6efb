import Thompson.Proofs.Fragment.Languages

/-!
Laws of taking in another automaton. States, final states and edges of both are put together, with
nothing lost and nothing put in twice, in whatever way they overlap; the start and the alphabet are
those of the automaton that takes in. What it accepted it still accepts; and if it shares no state
with the other one, no path from its start comes to the states that are new.
-/
namespace Thompson

namespace Automaton

variable {A B C : Automaton} {w : List Char}

theorem absorb_assoc (A B C : Automaton) : (A.absorb B).absorb C = A.absorb (B.absorb C) := by
  simp only [absorb, OrderedSet.union_assoc]

theorem absorb_self (A : Automaton) : A.absorb A = A := by
  simp only [absorb, OrderedSet.union_self]

theorem same_absorb_comm (start : A.start = B.start) (alphabet : A.alphabet = B.alphabet) :
    (A.absorb B).Same (B.absorb A) :=
  ⟨start, OrderedSet.same_union_comm _ _, OrderedSet.same_union_comm _ _,
    OrderedSet.same_union_comm _ _, alphabet⟩

theorem accepts_absorb (accepted : A.accepts w = true) : (A.absorb B).accepts w = true := by
  obtain ⟨f, final, path⟩ := accepts_iff_recognizes.mp accepted
  refine accepts_iff_recognizes.mpr ⟨f, (mem_finals_absorb ..).mpr (Or.inl final), ?_⟩
  exact path.mono fun e edge => (mem_edges_absorb ..).mpr (Or.inl edge)

section Apart

variable (sound : A.WellFormed) (other : B.WellFormed) (apart : A.Apart B)
include sound other apart

theorem Path.of_absorb {s t : State} (path : Path (A.absorb B) s w t) (start : s ∈ A.states) :
    Path A s w t := by
  refine path.of_closed (· ∈ A.states) ?_ start
  intro e edge source
  rcases (mem_edges_absorb ..).mp edge with inside | outside
  · exact ⟨inside, sound.target_mem e inside⟩
  · exact absurd (other.source_mem e outside) (apart e.source source)

theorem accepts_absorb_eq (w : List Char) : (A.absorb B).accepts w = A.accepts w := by
  apply Bool.eq_iff_iff.mpr
  constructor
  · intro accepted
    obtain ⟨f, final, path⟩ := accepts_iff_recognizes.mp accepted
    have inside := path.of_absorb sound other apart sound.start_mem
    have reached : f ∈ A.states := inside.stays (fun e edge _ => sound.target_mem e edge) sound.start_mem
    rcases (mem_finals_absorb ..).mp final with own | foreign
    · exact accepts_iff_recognizes.mpr ⟨f, own, inside⟩
    · exact absurd (other.finals_subset f foreign) (apart f reached)
  · exact accepts_absorb

theorem transitionCount_absorb :
    (A.absorb B).transitionCount = A.transitionCount + B.transitionCount := by
  have distinct : ∀ e ∈ B.edges, e ∉ A.edges := fun e outside inside =>
    apart e.source (sound.source_mem e inside) (other.source_mem e outside)
  have row := OrderedSet.toList_union_of_disjoint distinct
  exact (congrArg List.length row).trans List.length_append

omit sound other in
theorem stateCount_absorb : (A.absorb B).states.size = A.states.size + B.states.size := by
  have distinct : ∀ s ∈ B.states, s ∉ A.states := fun s outside inside => apart s inside outside
  have row := OrderedSet.toList_union_of_disjoint distinct
  exact (congrArg List.length row).trans List.length_append

end Apart

end Automaton

namespace History

section Tables

variable (x y z : History)

theorem mem_targets_absorb (s : State) (l : Label) (t : State) :
    t ∈ ((x.absorb y).table.row s).targets l ↔
      t ∈ (x.table.row s).targets l ∨ t ∈ (y.table.row s).targets l := by
  have listed (h : History) : t ∈ (h.table.row s).targets l ↔ ⟨s, l, t⟩ ∈ h.automaton.edges := by
    rw [h.table_eq, ← OrderedSet.mem_toList, Automaton.targets_table]
    exact Automaton.mem_successors
  rw [listed, listed, listed]
  exact Automaton.mem_edges_absorb _ _ _

theorem table_absorb_assoc : ((x.absorb y).absorb z).table = (x.absorb (y.absorb z)).table := by
  rw [table_eq, table_eq]
  exact congrArg Automaton.table (Automaton.absorb_assoc _ _ _)

theorem table_absorb_self : (x.absorb x).table = x.table := by
  rw [table_eq, table_eq]
  exact congrArg Automaton.table (Automaton.absorb_self _)

theorem same_table_absorb_comm : (x.absorb y).table.Same (y.absorb x).table := by
  rw [table_eq, table_eq]
  exact Automaton.same_table_iff.mpr (OrderedSet.same_union_comm _ _)

end Tables

/-- Whatever the operations were that led to three automata: one of them takes in another one with
    all of its states, final states and edges, and keeps its own start and alphabet. Taking in
    one after the other is the same, in all orders, as taking in both together; an automaton takes
    in nothing from itself; and with the same start and the same alphabet it makes no difference
    which one takes in the other. The tables of edges are merged by the same laws, cell by cell.
    What was accepted stays accepted, and nothing else is if no state is shared; then states and
    edges are counted separately. -/
theorem absorb_laws (x y z : History) :
    let A := x.automaton
    let B := y.automaton
    let C := z.automaton
    (A.absorb B).start = A.start ∧ (A.absorb B).alphabet = A.alphabet ∧
    ((∀ s, s ∈ (A.absorb B).states ↔ s ∈ A.states ∨ s ∈ B.states) ∧
      (∀ s, s ∈ (A.absorb B).finals ↔ s ∈ A.finals ∨ s ∈ B.finals) ∧
      (∀ e, e ∈ (A.absorb B).edges ↔ e ∈ A.edges ∨ e ∈ B.edges) ∧
      ∀ s l t, t ∈ ((x.table.merge y.table).row s).targets l ↔
        t ∈ (x.table.row s).targets l ∨ t ∈ (y.table.row s).targets l) ∧
    ((A.absorb B).absorb C = A.absorb (B.absorb C) ∧ A.absorb A = A ∧
      (A.start = B.start → A.alphabet = B.alphabet → (A.absorb B).Same (B.absorb A))) ∧
    ((x.table.merge y.table).merge z.table = x.table.merge (y.table.merge z.table) ∧
      x.table.merge x.table = x.table ∧
      (x.table.merge y.table).Same (y.table.merge x.table)) ∧
    (∀ w, A.accepts w = true → (A.absorb B).accepts w = true) ∧
    (A.Apart B → (∀ w, (A.absorb B).accepts w = A.accepts w) ∧
      (A.absorb B).transitionCount = A.transitionCount + B.transitionCount ∧
      (A.absorb B).states.size = A.states.size + B.states.size) := by
  intro A B C
  have first := x.wellFormed
  have second := y.wellFormed
  refine ⟨rfl, rfl, ⟨?_, ?_, ?_, ?_⟩, ⟨Automaton.absorb_assoc A B C, Automaton.absorb_self A,
    Automaton.same_absorb_comm⟩, ⟨table_absorb_assoc x y z, table_absorb_self x,
    same_table_absorb_comm x y⟩, fun w => Automaton.accepts_absorb, ?_⟩
  · exact fun s => Automaton.mem_states_absorb A B s
  · exact fun s => Automaton.mem_finals_absorb A B s
  · exact fun e => Automaton.mem_edges_absorb A B e
  · exact fun s l t => mem_targets_absorb x y s l t
  · intro apart
    exact ⟨Automaton.accepts_absorb_eq first second apart,
      Automaton.transitionCount_absorb first second apart, Automaton.stateCount_absorb apart⟩

/-- Two automata share states and an edge, and have different edges in one cell; a third one stands
    apart, with a final state at its start. -/
theorem absorb_laws_shared_cell : ∃ x y z : History,
    x.automaton.start = y.automaton.start ∧ x.automaton.alphabet = y.automaton.alphabet ∧
    ¬x.automaton.Apart y.automaton ∧ x.automaton.Apart z.automaton ∧
    x.automaton.absorb y.automaton ≠ y.automaton.absorb x.automaton ∧
    (x.automaton.absorb y.automaton).Same (y.automaton.absorb x.automaton) ∧
    (x.automaton.absorb y.automaton).transitionCount = 4 ∧
    (x.automaton.absorb y.automaton).accepts ['a'] = true ∧
    (x.automaton.absorb z.automaton).accepts ['b'] = false ∧
    (x.automaton.absorb z.automaton).transitionCount = 3 := by
  let shared : Edge := ⟨⟨0⟩, .symbol 'a', ⟨1⟩⟩
  let x : History := .ofEdges ⟨0⟩ [shared, ⟨⟨0⟩, .epsilon, ⟨2⟩⟩] [⟨1⟩]
  let y : History := .ofEdges ⟨0⟩ [⟨⟨0⟩, .symbol 'a', ⟨2⟩⟩, shared, ⟨⟨2⟩, .symbol 'b', ⟨1⟩⟩] [⟨2⟩]
  let z : History := .ofEdges ⟨3⟩ [⟨⟨3⟩, .symbol 'b', ⟨4⟩⟩] [⟨3⟩, ⟨4⟩]
  have start : x.automaton.start = y.automaton.start := by decide
  have alphabet : x.automaton.alphabet = y.automaton.alphabet := by decide
  have apart : x.automaton.Apart z.automaton := by decide
  obtain ⟨_, _, _, ⟨_, _, comm⟩, _, stays, _⟩ := absorb_laws x y z
  obtain ⟨_, _, _, _, _, _, separate⟩ := absorb_laws x z y
  obtain ⟨same, edges, _⟩ := separate apart
  have letter : x.automaton.accepts ['a'] = true := by decide +kernel
  have other : x.automaton.accepts ['b'] = false := by decide +kernel
  exact ⟨x, y, z, start, alphabet, by decide, apart, by decide, comm start alphabet, by decide,
    stays _ letter, (same _).trans other, edges⟩

end History

end Thompson
