import Thompson.Fragment

/-!
What the constructions of fragments are made of: start, states, final states and edges of
each, said of its operands and of the names that it takes.
-/
namespace Thompson.Fragment

variable {A B : Automaton} {names : NameSupply} {s : State} {e : Edge} {c : Char}

theorem mem_finalEdges {next : State} :
    e ∈ finalEdges A next ↔ ∃ f ∈ A.finals, e = ⟨f, .epsilon, next⟩ := by
  simp only [finalEdges, List.mem_map, OrderedSet.mem_toList]
  constructor
  · intro ⟨f, hf, same⟩
    exact ⟨f, hf, same.symm⟩
  · intro ⟨f, hf, same⟩
    exact ⟨f, hf, same.symm⟩

@[simp] theorem start_empty : (empty names).1.start = ⟨names.issued⟩ := rfl

@[simp] theorem mem_states_empty :
    s ∈ (empty names).1.states ↔ s = ⟨names.issued⟩ ∨ s = ⟨names.issued + 1⟩ := by
  simp only [empty, NameSupply.fresh_fst, NameSupply.issued_fresh, Automaton.mem_states_addEdge,
    Automaton.mem_states_addFinal, Automaton.mem_states_single]
  grind

@[simp] theorem mem_finals_empty : s ∈ (empty names).1.finals ↔ s = ⟨names.issued + 1⟩ := by
  simp [empty]

@[simp] theorem mem_edges_empty :
    e ∈ (empty names).1.edges ↔ e = ⟨⟨names.issued⟩, .epsilon, ⟨names.issued + 1⟩⟩ := by
  simp [empty]

theorem primitive_mark : primitive emptyMark names =
    ((Automaton.single ⟨names.issued⟩).addFinal ⟨names.issued⟩, names.fresh.2) := rfl

theorem primitive_letter (letter : c ≠ emptyMark) : primitive c names =
    ((((Automaton.single ⟨names.issued⟩).addFinal ⟨names.issued + 1⟩).addEdge
      ⟨⟨names.issued⟩, .symbol c, ⟨names.issued + 1⟩⟩).addSymbols [c], names.fresh.2.fresh.2) := by
  unfold primitive
  exact if_neg letter

@[simp] theorem start_primitive : (primitive c names).1.start = ⟨names.issued⟩ := by
  by_cases mark : c = emptyMark
  · rw [mark, primitive_mark]
    rfl
  · rw [primitive_letter mark]
    rfl

theorem mem_states_primitive_mark :
    s ∈ (primitive emptyMark names).1.states ↔ s = ⟨names.issued⟩ := by
  simp [primitive_mark]

theorem mem_states_primitive (letter : c ≠ emptyMark) :
    s ∈ (primitive c names).1.states ↔ s = ⟨names.issued⟩ ∨ s = ⟨names.issued + 1⟩ := by
  rw [primitive_letter letter]
  simp only [Automaton.states_addSymbols, Automaton.mem_states_addEdge,
    Automaton.mem_states_addFinal, Automaton.mem_states_single]
  grind

theorem mem_finals_primitive (letter : c ≠ emptyMark) :
    s ∈ (primitive c names).1.finals ↔ s = ⟨names.issued + 1⟩ := by
  simp [primitive_letter letter]

theorem mem_edges_primitive (letter : c ≠ emptyMark) :
    e ∈ (primitive c names).1.edges ↔
      e = ⟨⟨names.issued⟩, .symbol c, ⟨names.issued + 1⟩⟩ := by
  simp [primitive_letter letter]

@[simp] theorem start_concatenate : (concatenate A B).start = A.start := rfl

@[simp] theorem mem_finals_concatenate : s ∈ (concatenate A B).finals ↔ s ∈ B.finals := by
  simp [concatenate]

@[simp] theorem mem_edges_concatenate :
    e ∈ (concatenate A B).edges ↔
      (e ∈ A.edges ∨ ∃ f ∈ A.finals, e = ⟨f, .epsilon, B.start⟩) ∨ e ∈ B.edges := by
  simp only [concatenate, Automaton.mem_edges_absorb, Automaton.mem_edges_addEdges, mem_finalEdges]

@[simp] theorem start_union : (union A B names).1.start = ⟨names.issued⟩ := rfl

@[simp] theorem mem_finals_union :
    s ∈ (union A B names).1.finals ↔ s ∈ A.finals ∨ s ∈ B.finals := by
  simp [union]

@[simp] theorem mem_edges_union :
    e ∈ (union A B names).1.edges ↔
      ((e ∈ A.edges ∨ e ∈ B.edges) ∨ e = ⟨⟨names.issued⟩, .epsilon, A.start⟩) ∨
        e = ⟨⟨names.issued⟩, .epsilon, B.start⟩ := by
  simp [union]

@[simp] theorem start_repetition : (repetition A names).1.start = ⟨names.issued⟩ := rfl

@[simp] theorem mem_finals_repetition :
    s ∈ (repetition A names).1.finals ↔ s = ⟨names.issued⟩ ∨ s ∈ A.finals := by
  simp [repetition]

@[simp] theorem mem_edges_repetition :
    e ∈ (repetition A names).1.edges ↔
      (e ∈ A.edges ∨ ∃ f ∈ A.finals, e = ⟨f, .epsilon, A.start⟩) ∨
        e = ⟨⟨names.issued⟩, .epsilon, A.start⟩ := by
  simp only [repetition, NameSupply.fresh_fst, Automaton.edges_addFinal, Automaton.edges_setStart,
    Automaton.mem_edges_addEdge, Automaton.mem_edges_addEdges, mem_finalEdges]

section Kept

-- no construction loses an edge of an operand

theorem edge_concatenate_left (own : e ∈ A.edges) : e ∈ (concatenate A B).edges :=
  mem_edges_concatenate.mpr (Or.inl (Or.inl own))

theorem edge_concatenate_right (own : e ∈ B.edges) : e ∈ (concatenate A B).edges :=
  mem_edges_concatenate.mpr (Or.inr own)

theorem edge_union_left (own : e ∈ A.edges) : e ∈ (union A B names).1.edges :=
  mem_edges_union.mpr (Or.inl (Or.inl (Or.inl own)))

theorem edge_union_right (own : e ∈ B.edges) : e ∈ (union A B names).1.edges :=
  mem_edges_union.mpr (Or.inl (Or.inl (Or.inr own)))

theorem edge_repetition_inside (own : e ∈ A.edges) : e ∈ (repetition A names).1.edges :=
  mem_edges_repetition.mpr (Or.inl (Or.inl own))

end Kept

section Added

theorem edge_concatenate_across {f : State} (final : f ∈ A.finals) :
    ⟨f, .epsilon, B.start⟩ ∈ (concatenate A B).edges :=
  mem_edges_concatenate.mpr (Or.inl (Or.inr ⟨f, final, rfl⟩))

theorem edge_union_to_left : ⟨⟨names.issued⟩, .epsilon, A.start⟩ ∈ (union A B names).1.edges :=
  mem_edges_union.mpr (Or.inl (Or.inr rfl))

theorem edge_union_to_right : ⟨⟨names.issued⟩, .epsilon, B.start⟩ ∈ (union A B names).1.edges :=
  mem_edges_union.mpr (Or.inr rfl)

theorem edge_repetition_back {f : State} (final : f ∈ A.finals) :
    ⟨f, .epsilon, A.start⟩ ∈ (repetition A names).1.edges :=
  mem_edges_repetition.mpr (Or.inl (Or.inr ⟨f, final, rfl⟩))

theorem edge_repetition_first :
    ⟨⟨names.issued⟩, .epsilon, A.start⟩ ∈ (repetition A names).1.edges :=
  mem_edges_repetition.mpr (Or.inr rfl)

end Added

end Thompson.Fragment
