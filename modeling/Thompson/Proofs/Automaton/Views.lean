import Thompson.Proofs.Automaton.Replay

/-!
Ways to look at the edges. A table keeps its rows and cells without repetition, so going through it
meets every edge once; what one finds in a cell, in a row and in the whole table are the same edges,
and the sizes of the cells add up to their number. They are the edges that the operations put in,
however often and in whatever order, with those of every automaton that was taken in.
-/
namespace Thompson

namespace OrderedMap

variable {κ ν : Type} [DecidableEq κ] {m : OrderedMap κ ν}

theorem get?_of_mem {k : κ} {v : ν} (member : (k, v) ∈ m.entries) : m.get? k = some v := by
  obtain ⟨es, distinct⟩ := m
  unfold get?
  induction es with
  | nil => contradiction
  | cons e es ih =>
    obtain ⟨absent, later⟩ := List.nodup_cons.mp distinct
    rcases List.mem_cons.mp member with rfl | inside
    · exact List.lookup_cons_self
    · have other : (k == e.1) = false := by
        have different : k ≠ e.1 := fun same => absent (same ▸ List.mem_map_of_mem inside)
        simpa using different
      rw [List.lookup_cons, other]
      exact ih later inside

theorem entries_eq (new : ν) (m : OrderedMap κ ν) :
    m.entries = m.keys.map fun k => (k, (m.get? k).getD new) := by
  have each : ∀ e ∈ m.entries, (e.1, (m.get? e.1).getD new) = id e := by
    rintro ⟨k, v⟩ member
    rw [get?_of_mem member, Option.getD_some, id]
  have all := List.map_congr_left each
  rw [List.map_id] at all
  rw [keys, List.map_map]
  exact all.symm

end OrderedMap

namespace OrderedSet

variable {α : Type} [DecidableEq α] [Hashable α]

theorem ofList_append (xs ys : List α) : ofList (xs ++ ys) = (ofList xs).union (ofList ys) := by
  apply ext
  simp [ofList, firsts_append]

end OrderedSet

namespace Table

variable (T : Table) (s : State) (l : Label)

theorem successors_eq : T.successors s l = ((T.row s).targets l).toList := by
  unfold successors row
  cases T.get? s with
  | none => rfl
  | some row => cases cell : row.get? l <;> simp [Row.targets, cell]

theorem outgoing_eq : T.outgoing s =
    (T.row s).labels.map fun l => (l, ((T.row s).targets l).toList) := by
  have cells (row : Row) : (row.entries.map fun cell => (cell.1, cell.2.toList)) =
      row.labels.map fun l => (l, (row.targets l).toList) := by
    rw [OrderedMap.entries_eq .empty row, List.map_map]
    rfl
  unfold outgoing row
  cases T.get? s with
  | none => rfl
  | some row => exact cells row

theorem transitions_eq : T.transitions = T.sources.flatMap fun s =>
    (T.row s).labels.flatMap fun l => ((T.row s).targets l).toList.map fun t => ⟨s, l, t⟩ := by
  have cells (s : State) (row : Row) :
      (row.entries.flatMap fun cell => cell.2.toList.map fun t => (⟨s, cell.1, t⟩ : Edge)) =
        row.labels.flatMap fun l => (row.targets l).toList.map fun t => ⟨s, l, t⟩ := by
    rw [OrderedMap.entries_eq .empty row, List.flatMap_map]
    rfl
  unfold transitions
  rw [OrderedMap.entries_eq Row.empty T, List.flatMap_map]
  simp only [cells]
  rfl

theorem length_transitions : T.transitions.length = T.transitionCount := by
  rw [transitionCount, ← List.sum_eq_foldl, transitions, List.flatMap_def (f := fun r : State × Row => r.2.entries.map _), List.sum_flatten, List.map_map]
  simp only [List.length_flatMap, List.length_map]
  rfl

end Table

namespace Automaton

variable (A : Automaton) (s : State) (l : Label)

theorem successors_table : A.table.successors s l = A.successors s l :=
  (A.table.successors_eq s l).trans (A.targets_table s l)

theorem outgoing_table : A.table.outgoing s = A.outgoing s := by
  rw [Table.outgoing_eq, labels_table]
  simp only [targets_table]
  rfl

theorem transitions_table : A.table.transitions = A.transitions := by
  rw [Table.transitions_eq, sources_table]
  simp only [labels_table, targets_table]
  exact A.transitions_eq.symm

theorem length_transitions : A.transitions.length = A.transitionCount := by
  have listed : A.transitions.Perm A.edges.toList :=
    (List.perm_ext_iff_of_nodup A.nodup_transitions A.edges.nodup).mpr fun _ => mem_transitions
  exact listed.length_eq

theorem mem_outgoing {targets : List State} : (l, targets) ∈ A.outgoing s ↔
    targets = A.successors s l ∧ targets ≠ [] := by
  constructor
  · intro cell
    obtain ⟨_, label, same⟩ := List.mem_map.mp cell
    cases same
    obtain ⟨t, edge⟩ := mem_labelsFrom.mp label
    exact ⟨rfl, List.ne_nil_of_mem (mem_successors.mpr edge)⟩
  · rintro ⟨rfl, some⟩
    obtain ⟨t, target⟩ := List.exists_mem_of_ne_nil _ some
    exact List.mem_map_of_mem (mem_labelsFrom.mpr ⟨t, mem_successors.mp target⟩)

end Automaton

namespace History

/-- The edges stand in the order in which they were first put in. -/
theorem edges_automaton (h : History) : h.automaton.edges = .ofList h.added := by
  induction h with
  | single s => rfl
  | setStart h s ih | addState h s ih | addFinal h s ih | removeFinal h s ih | addSymbols h cs ih =>
    exact ih
  | addEdge h e ih =>
    rw [added, OrderedSet.ofList_append, ← ih]
    rfl
  | absorb h other ih ihOther =>
    rw [added, OrderedSet.ofList_append, ← ih, ← ihOther]
    rfl
  | empty names => rfl
  | primitive c names =>
    by_cases mark : c = emptyMark
    · rw [mark]
      rfl
    · rw [added, if_neg mark, automaton, Fragment.primitive_letter mark]
      rfl
  | concatenate first second ihFirst ihSecond =>
    rw [added, OrderedSet.ofList_append, OrderedSet.ofList_append, ← ihFirst, ← ihSecond]
    rfl
  | union first second names ihFirst ihSecond =>
    rw [added, OrderedSet.ofList_append, OrderedSet.ofList_append, ← ihFirst, ← ihSecond]
    exact (OrderedSet.union_ofList_append _ [_] [_]).symm
  | repetition h names ih =>
    rw [added, OrderedSet.ofList_append, OrderedSet.ofList_append, ← ih]
    rfl

/-- Whatever the operations were: the table that they lead to and the edges of the automaton have
    the same views, in the same order. Every edge is listed once. It is listed exactly if its target
    is found under its source and label, and exactly if the row of its source has a cell that says
    so; a row has one cell for a label. The count is the length of the list, and what is listed are
    the edges put in at some time, here or in an automaton that was taken in. -/
theorem views_agree (h : History) :
    let A := h.automaton
    let T := h.table
    (T.transitions = A.transitions ∧ T.transitionCount = A.transitionCount ∧
      ∀ s, T.outgoing s = A.outgoing s ∧ ∀ l, T.successors s l = A.successors s l) ∧
    A.transitions.Nodup ∧
    (∀ s l t, (⟨s, l, t⟩ ∈ A.transitions ↔ t ∈ A.successors s l) ∧
      (⟨s, l, t⟩ ∈ A.transitions ↔ ∃ targets, (l, targets) ∈ A.outgoing s ∧ t ∈ targets)) ∧
    (∀ s, ((A.outgoing s).map Prod.fst).Nodup) ∧
    A.transitionCount = A.transitions.length ∧
    ∀ e, e ∈ A.transitions ↔ e ∈ h.added := by
  intro A T
  have table : T = A.table := h.table_eq
  have listed := A.transitions_table
  have counted : A.table.transitionCount = A.transitionCount := by
    rw [← Table.length_transitions, listed, A.length_transitions]
  have found (s l t) : ⟨s, l, t⟩ ∈ A.transitions ↔ t ∈ A.successors s l :=
    Automaton.mem_transitions.trans Automaton.mem_successors.symm
  rw [table]
  refine ⟨⟨listed, counted, fun s => ⟨A.outgoing_table s, A.successors_table s⟩⟩,
    A.nodup_transitions, fun s l t => ⟨found s l t, ?_⟩, fun s => ?_, A.length_transitions.symm,
    fun e => ?_⟩
  · rw [found]
    constructor
    · intro target
      exact ⟨_, (A.mem_outgoing s l).mpr ⟨rfl, List.ne_nil_of_mem target⟩, target⟩
    · rintro ⟨targets, cell, target⟩
      obtain ⟨rfl, _⟩ := (A.mem_outgoing s l).mp cell
      exact target
  · have labels : (A.outgoing s).map Prod.fst = A.labelsFrom s := by
      rw [Automaton.outgoing, List.map_map]
      exact List.map_id _
    rw [labels]
    exact A.nodup_labelsFrom s
  · rw [Automaton.mem_transitions, show A.edges = .ofList h.added from h.edges_automaton]
    exact OrderedSet.mem_ofList

end History

end Thompson
