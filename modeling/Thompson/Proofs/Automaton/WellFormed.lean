import Thompson.Automaton.Structure

/-!
Well-formed automata stay well-formed. An operation adds the ends of an edge and a final
state to the states before it uses them, and keeps the mark of the empty text out of the
alphabet; so no operation can break a rule.
-/
namespace Thompson

namespace Automaton.WellFormed

variable {A B : Automaton}

theorem single (s : State) : (Automaton.single s).WellFormed := by
  constructor <;> simp [Automaton.single, OrderedSet.singleton, ← OrderedSet.mem_toList]

theorem addState (h : A.WellFormed) (s : State) : (A.addState s).WellFormed where
  start_mem := by simp [h.start_mem]
  finals_subset t ht := by simp [h.finals_subset t ht]
  source_mem e he := by simp [h.source_mem e he]
  target_mem e he := by simp [h.target_mem e he]
  emptyMark_not_mem := h.emptyMark_not_mem

theorem setStart (h : A.WellFormed) (s : State) : (A.setStart s).WellFormed where
  start_mem := by simp
  finals_subset t ht := by simp [h.finals_subset t ht]
  source_mem e he := by simp [h.source_mem e he]
  target_mem e he := by simp [h.target_mem e he]
  emptyMark_not_mem := h.emptyMark_not_mem

theorem addFinal (h : A.WellFormed) (s : State) : (A.addFinal s).WellFormed where
  start_mem := by simp [h.start_mem]
  finals_subset t ht := by
    simp only [mem_finals_addFinal] at ht
    simp only [mem_states_addFinal]
    exact ht.imp id (h.finals_subset t)
  source_mem e he := by simp [h.source_mem e he]
  target_mem e he := by simp [h.target_mem e he]
  emptyMark_not_mem := h.emptyMark_not_mem

theorem removeFinal (h : A.WellFormed) (s : State) : (A.removeFinal s).WellFormed where
  start_mem := h.start_mem
  finals_subset t ht := by
    simp only [mem_finals_removeFinal] at ht
    exact h.finals_subset t ht.1
  source_mem := h.source_mem
  target_mem := h.target_mem
  emptyMark_not_mem := h.emptyMark_not_mem

theorem addEdges (h : A.WellFormed) (es : List Edge) : (A.addEdges es).WellFormed where
  start_mem := by simp [h.start_mem]
  finals_subset t ht := by simp [h.finals_subset t ht]
  source_mem e he := by
    simp only [mem_edges_addEdges] at he
    simp only [mem_states_addEdges]
    rcases he with old | new
    · exact Or.inl (h.source_mem e old)
    · exact Or.inr ⟨e, new, Or.inl rfl⟩
  target_mem e he := by
    simp only [mem_edges_addEdges] at he
    simp only [mem_states_addEdges]
    rcases he with old | new
    · exact Or.inl (h.target_mem e old)
    · exact Or.inr ⟨e, new, Or.inr rfl⟩
  emptyMark_not_mem := h.emptyMark_not_mem

theorem addEdge (h : A.WellFormed) (e : Edge) : (A.addEdge e).WellFormed := h.addEdges [e]

theorem addSymbols (h : A.WellFormed) (cs : List Char) : (A.addSymbols cs).WellFormed where
  start_mem := h.start_mem
  finals_subset := h.finals_subset
  source_mem := h.source_mem
  target_mem := h.target_mem
  emptyMark_not_mem := by simp [h.emptyMark_not_mem]

theorem absorb (h : A.WellFormed) (other : B.WellFormed) : (A.absorb B).WellFormed where
  start_mem := by simp [h.start_mem]
  finals_subset t ht := by
    simp only [mem_finals_absorb] at ht
    simp only [mem_states_absorb]
    exact ht.imp (h.finals_subset t) (other.finals_subset t)
  source_mem e he := by
    simp only [mem_edges_absorb] at he
    simp only [mem_states_absorb]
    exact he.imp (h.source_mem e) (other.source_mem e)
  target_mem e he := by
    simp only [mem_edges_absorb] at he
    simp only [mem_states_absorb]
    exact he.imp (h.target_mem e) (other.target_mem e)
  emptyMark_not_mem := h.emptyMark_not_mem

theorem withoutFinals (h : A.WellFormed) : { A with finals := .empty }.WellFormed where
  start_mem := h.start_mem
  finals_subset t ht := absurd ht (OrderedSet.not_mem_empty t)
  source_mem := h.source_mem
  target_mem := h.target_mem
  emptyMark_not_mem := h.emptyMark_not_mem

end Automaton.WellFormed

end Thompson
