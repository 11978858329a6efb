import Thompson.Pattern.Construction
import Thompson.Proofs.Automaton.Subsets
import Thompson.Proofs.Automaton.Tables
import Thompson.Proofs.Fragment.Pools
import Thompson.Proofs.Fragment.Recognition

/-!
What the constructions accept, whatever their operands are. Any operations may have led to an
operand: edges may lead into its start and out of its final states, and it may have one final
state, many or none. Only, two operands share no state, and a new start is new to them.
-/
namespace Thompson

def History.ofEdges (start : State) (es : List Edge) (finals : List State) : History :=
  finals.foldl .addFinal (es.foldl .addEdge (.single start))

namespace Fragment

variable {A B : Automaton} {names : NameSupply}

section Repetition

/-- Any number of pieces in a row, each of which the operand accepts. -/
theorem accepts_repetition_iff (built : A.Built) (new : ⟨names.issued⟩ ∉ A.states)
    (w : List Char) :
    (repetition A names).1.accepts w = true ↔
      ∃ vs : List (List Char), w = vs.flatten ∧ ∀ v ∈ vs, A.accepts v = true := by
  simp only [Automaton.accepts_iff_recognizes]
  exact recognizes_repetition built.wellFormed new

/-- Both final states lie on a circle of epsilon edges, and from one of them an edge leads back
    into the start. -/
theorem accepts_repetition_circles : ∃ A : Automaton, A.Built ∧ ⟨3⟩ ∉ A.states ∧
    A.finals.toList = [⟨1⟩, ⟨2⟩] ∧ ⟨⟨1⟩, .symbol 'b', A.start⟩ ∈ A.edges ∧
    ⟨⟨1⟩, .epsilon, ⟨2⟩⟩ ∈ A.edges ∧ ⟨⟨2⟩, .epsilon, ⟨1⟩⟩ ∈ A.edges ∧
    (repetition A ⟨3⟩).1.accepts "aabaa".toList = true := by
  let h : History := .ofEdges ⟨0⟩ [⟨⟨0⟩, .symbol 'a', ⟨1⟩⟩, ⟨⟨1⟩, .symbol 'b', ⟨0⟩⟩,
    ⟨⟨1⟩, .epsilon, ⟨2⟩⟩, ⟨⟨2⟩, .epsilon, ⟨1⟩⟩] [⟨1⟩, ⟨2⟩]
  have built : h.automaton.Built := ⟨h, rfl⟩
  have new : (⟨3⟩ : State) ∉ h.automaton.states := by decide
  have pieces : ∀ v ∈ [['a'], ['a', 'b', 'a'], ['a']], h.automaton.accepts v = true := by
    decide +kernel
  exact ⟨h.automaton, built, new, by decide, by decide, by decide, by decide,
    (accepts_repetition_iff built new _).mpr ⟨_, rfl, pieces⟩⟩

end Repetition

section Concatenation

def leadOn (next : State) (A : Automaton) (f : State) : Automaton :=
  (A.addEdge ⟨f, .epsilon, next⟩).removeFinal f

theorem foldl_leadOn (next : State) (A : Automaton) (fs : List State) :
    fs.foldl (leadOn next) A =
      { A.addEdges (fs.map fun f => ⟨f, .epsilon, next⟩) with
        finals := fs.foldl OrderedSet.erase A.finals } := by
  induction fs generalizing A with
  | nil => rw [List.map_nil, Automaton.addEdges_nil]; rfl
  | cons f fs ih =>
    rw [List.foldl_cons, ih, List.map_cons, Automaton.addEdges_cons]
    rfl

theorem concatenate_eq_foldl (A B : Automaton) :
    concatenate A B = (A.finals.toList.foldl (leadOn B.start) A).absorb B := by
  rw [foldl_leadOn, OrderedSet.foldl_erase_toList]
  rfl

theorem finals_concatenate (A B : Automaton) :
    (concatenate A B).finals.toList = B.finals.toList :=
  OrderedSet.toList_union_of_disjoint fun _ _ => OrderedSet.not_mem_empty _

/-- Nothing is new in the value: its final states are those of the second operand, start and
    alphabet those of the first, and the supply of names stays as it was. -/
theorem accepts_concatenate_iff (first : A.Built) (second : B.Built) (apart : A.Apart B) :
    (∀ w, (concatenate A B).accepts w = true ↔
      ∃ u v, w = u ++ v ∧ A.accepts u = true ∧ B.accepts v = true) ∧
    (concatenate A B).finals.toList = B.finals.toList ∧
    (concatenate A B).start = A.start ∧ (concatenate A B).alphabet = A.alphabet ∧
    (∀ s, s ∈ (concatenate A B).states ↔ s ∈ A.states ∨ s ∈ B.states) ∧
    concatenate A B = (A.finals.toList.foldl (leadOn B.start) A).absorb B ∧
    ∀ (values : List Automaton) (names : NameSupply),
      Operation.concatenate.apply thompson ⟨B :: A :: values, names⟩ =
        some (concatenate A B, ⟨values, names⟩) := by
  have left := first.wellFormed
  have right := second.wellFormed
  refine ⟨?_, finals_concatenate A B, rfl, rfl, ?_, concatenate_eq_foldl A B, fun _ _ => rfl⟩
  · intro w
    simp only [Automaton.accepts_iff_recognizes]
    exact recognizes_concatenate left right apart.symm
  · intro s
    exact mem_states_concatenate left right

/-- The first operand has two final states, with an edge out of the one and back into the start
    from the other; the second one has an edge back into its start as well. -/
theorem accepts_concatenate_two_finals : ∃ A B : Automaton, A.Built ∧ B.Built ∧ A.Apart B ∧
    A.finals.toList = [⟨1⟩, ⟨2⟩] ∧ ⟨⟨1⟩, .symbol 'b', ⟨1⟩⟩ ∈ A.edges ∧
    ⟨⟨2⟩, .epsilon, A.start⟩ ∈ A.edges ∧ ⟨⟨4⟩, .epsilon, B.start⟩ ∈ B.edges ∧
    (concatenate A B).finals.toList = [⟨4⟩] ∧
    (concatenate A B).accepts "abb".toList = true ∧ (concatenate A B).accepts "b".toList = true := by
  let g : History := .ofEdges ⟨0⟩ [⟨⟨0⟩, .symbol 'a', ⟨1⟩⟩, ⟨⟨1⟩, .symbol 'b', ⟨1⟩⟩,
    ⟨⟨0⟩, .epsilon, ⟨2⟩⟩, ⟨⟨2⟩, .epsilon, ⟨0⟩⟩] [⟨1⟩, ⟨2⟩]
  let h : History := .ofEdges ⟨3⟩ [⟨⟨3⟩, .symbol 'b', ⟨4⟩⟩, ⟨⟨4⟩, .epsilon, ⟨3⟩⟩] [⟨4⟩]
  have apart : g.automaton.Apart h.automaton := by decide
  obtain ⟨accepts, finals, _⟩ := accepts_concatenate_iff ⟨g, rfl⟩ ⟨h, rfl⟩ apart
  have longer : g.automaton.accepts ['a', 'b'] = true := by decide +kernel
  have nothing : g.automaton.accepts [] = true := by decide +kernel
  have letter : h.automaton.accepts ['b'] = true := by decide +kernel
  exact ⟨g.automaton, h.automaton, ⟨g, rfl⟩, ⟨h, rfl⟩, apart, by decide, by decide, by decide,
    by decide, finals, (accepts _).mpr ⟨_, _, rfl, longer, letter⟩,
    (accepts _).mpr ⟨_, _, rfl, nothing, letter⟩⟩

end Concatenation

section Union

theorem finals_union (first : A.WellFormed) (second : B.WellFormed) (apart : A.Apart B) :
    (union A B names).1.finals.toList = A.finals.toList ++ B.finals.toList := by
  apply OrderedSet.toList_union_of_disjoint
  intro s inSecond inFirst
  exact apart s (first.finals_subset s inFirst) (second.finals_subset s inSecond)

/-- What one of the operands accepts, over the alphabet of the first; the final states of both stay
    final, those of the first before those of the second. -/
theorem accepts_union_iff (first : A.Built) (second : B.Built) (apart : A.Apart B)
    (newFirst : ⟨names.issued⟩ ∉ A.states) (newSecond : ⟨names.issued⟩ ∉ B.states) :
    (∀ w, (union A B names).1.accepts w = true ↔ A.accepts w = true ∨ B.accepts w = true) ∧
    (union A B names).1.finals.toList = A.finals.toList ++ B.finals.toList ∧
    (union A B names).1.alphabet = A.alphabet := by
  have left := first.wellFormed
  have right := second.wellFormed
  refine ⟨?_, finals_union left right apart, rfl⟩
  intro w
  simp only [Automaton.accepts_iff_recognizes]
  exact recognizes_union left right apart.symm newFirst newSecond

/-- Edges lead into both starts. No way leads from one operand into the other, so a text with the
    letters of both is not accepted. -/
theorem accepts_union_entered_starts : ∃ A B : Automaton, A.Built ∧ B.Built ∧ A.Apart B ∧
    ⟨3⟩ ∉ A.states ∧ ⟨3⟩ ∉ B.states ∧ ⟨A.start, .symbol 'a', A.start⟩ ∈ A.edges ∧
    ⟨⟨2⟩, .symbol 'b', B.start⟩ ∈ B.edges ∧
    (union A B ⟨3⟩).1.finals.toList = [⟨0⟩, ⟨2⟩, ⟨1⟩] ∧
    (union A B ⟨3⟩).1.accepts "aa".toList = true ∧ (union A B ⟨3⟩).1.accepts "bb".toList = true ∧
    (union A B ⟨3⟩).1.accepts "ab".toList = false := by
  let g : History := .ofEdges ⟨0⟩ [⟨⟨0⟩, .symbol 'a', ⟨0⟩⟩] [⟨0⟩]
  let h : History :=
    .ofEdges ⟨1⟩ [⟨⟨1⟩, .symbol 'b', ⟨2⟩⟩, ⟨⟨2⟩, .symbol 'b', ⟨1⟩⟩] [⟨2⟩, ⟨1⟩]
  have apart : g.automaton.Apart h.automaton := by decide
  have newFirst : (⟨3⟩ : State) ∉ g.automaton.states := by decide
  have newSecond : (⟨3⟩ : State) ∉ h.automaton.states := by decide
  obtain ⟨accepts, finals, _⟩ := accepts_union_iff ⟨g, rfl⟩ ⟨h, rfl⟩ apart newFirst newSecond
  have left : g.automaton.accepts ['a', 'a'] = true := by decide +kernel
  have right : h.automaton.accepts ['b', 'b'] = true := by decide +kernel
  have neither : ¬(g.automaton.accepts ['a', 'b'] = true ∨ h.automaton.accepts ['a', 'b'] = true) := by
    decide +kernel
  exact ⟨g.automaton, h.automaton, ⟨g, rfl⟩, ⟨h, rfl⟩, apart, newFirst, newSecond, by decide,
    by decide, finals, (accepts _).mpr (Or.inl left), (accepts _).mpr (Or.inr right),
    Bool.eq_false_iff.mpr fun mixed => neither ((accepts _).mp mixed)⟩

end Union

end Fragment

end Thompson
