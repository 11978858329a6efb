import Mathlib.Data.List.Induction
import Thompson.Automaton.History
import Thompson.Proofs.Automaton.WellFormed
import Thompson.Proofs.Fragment.Names

/-!
Tables and lists of edges. A table into which edges are put one after the other lists the same
sources, labels and targets, in the same order, as the views of the edges do; an edge put in
again changes nothing, and a merge puts in the edges of the other table. So the table that a
history leads to and the edges of its automaton tell the same, and nothing in the table is empty.
-/
namespace Thompson

namespace Row

variable {row : Row} {l k : Label} {s t : State}

theorem labels_add :
    (row.add l t).labels = if l ∈ row.labels then row.labels else row.labels ++ [l] :=
  OrderedMap.keys_update

theorem targets_add :
    (row.add l t).targets k = if k = l then (row.targets l).insert t else row.targets k :=
  OrderedMap.getD_update

theorem add_of_mem (known : t ∈ row.targets l) : row.add l t = row := by
  unfold targets at known
  cases cell : row.get? l with
  | none =>
    rw [cell] at known
    exact absurd known (OrderedSet.not_mem_empty t)
  | some ts =>
    rw [cell] at known
    exact OrderedMap.update_eq_self cell (OrderedSet.insert_of_mem known)

theorem merge_add (row other : Row) (l : Label) (t : State) :
    row.merge (other.add l t) = (row.merge other).add l t :=
  OrderedMap.merge_update OrderedSet.union_empty fun v w => OrderedSet.union_insert v w t

end Row

namespace Table

variable {T U : Table} {e : Edge} {es : List Edge} {s : State}

theorem sources_add :
    (T.add e).sources =
      if e.source ∈ T.sources then T.sources else T.sources ++ [e.source] :=
  OrderedMap.keys_update

theorem row_add :
    (T.add e).row s = if s = e.source then (T.row e.source).add e.label e.target else T.row s :=
  OrderedMap.getD_update

theorem add_of_mem (known : e.target ∈ (T.row e.source).targets e.label) : T.add e = T := by
  unfold row at known
  cases found : T.get? e.source with
  | none =>
    rw [found] at known
    exact absurd known (OrderedSet.not_mem_empty e.target)
  | some cells =>
    rw [found] at known
    exact OrderedMap.update_eq_self found (Row.add_of_mem known)

theorem merge_add (T U : Table) (e : Edge) : T.merge (U.add e) = (T.merge U).add e :=
  OrderedMap.merge_update (fun _ => rfl) fun v w => Row.merge_add v w e.label e.target

theorem merge_addAll (T U : Table) (es : List Edge) :
    T.merge (U.addAll es) = (T.merge U).addAll es := by
  induction es generalizing U with
  | nil => rfl
  | cons e es ih =>
    have later := ih (U := U.add e)
    rw [merge_add] at later
    exact later

theorem addAll_concat (T : Table) (es : List Edge) (e : Edge) :
    T.addAll (es ++ [e]) = (T.addAll es).add e := by
  simp [addAll]

section Views

theorem sources_addAll (es : List Edge) :
    (empty.addAll es).sources = firsts (es.map Edge.source) := by
  induction es using List.reverseRecOn with
  | nil => rfl
  | append_singleton es e ih =>
    rw [addAll_concat, sources_add, ih, List.map_append, List.map_singleton, firsts_concat]
    simp only [mem_firsts]

theorem labels_addAll (es : List Edge) (s : State) :
    ((empty.addAll es).row s).labels = firsts ((es.filter (·.source = s)).map Edge.label) := by
  induction es using List.reverseRecOn with
  | nil => rfl
  | append_singleton es e ih =>
    rw [addAll_concat, row_add]
    by_cases here : s = e.source
    · have one : [e].filter (·.source = s) = [e] := by simp [here]
      rw [if_pos here, ← here, Row.labels_add, ih, List.filter_append, one, List.map_append,
        List.map_singleton, firsts_concat]
      simp only [mem_firsts]
    · have none : [e].filter (·.source = s) = [] := by simp [Ne.symm here]
      rw [if_neg here, ih, List.filter_append, none, List.append_nil]

theorem targets_addAll (es : List Edge) (s : State) (l : Label) :
    ((empty.addAll es).row s).targets l = .ofList (es.filterMap fun e =>
      if e.source = s ∧ e.label = l then some e.target else none) := by
  induction es using List.reverseRecOn with
  | nil => rfl
  | append_singleton es e ih =>
    rw [addAll_concat, row_add, List.filterMap_append]
    by_cases here : s = e.source
    · rw [if_pos here, ← here, Row.targets_add]
      by_cases label : l = e.label
      · have one : [e].filterMap (fun e => if e.source = s ∧ e.label = l then some e.target
            else none) = [e.target] := by simp [here, label]
        rw [if_pos label, ← label, ih, one, OrderedSet.ofList_concat]
      · simp [label, ih, Ne.symm label]
    · simp [here, ih, Ne.symm here]

end Views

theorem add_addAll_of_mem (known : e ∈ es) : (empty.addAll es).add e = empty.addAll es := by
  apply add_of_mem
  rw [targets_addAll]
  exact OrderedSet.mem_ofList.mpr (List.mem_filterMap.mpr ⟨e, known, by simp⟩)

theorem addAll_insert (known : OrderedSet Edge) (e : Edge) :
    empty.addAll (known.insert e).toList = (empty.addAll known.toList).add e := by
  by_cases inside : e ∈ known
  · rw [OrderedSet.insert_of_mem inside, add_addAll_of_mem inside]
  · rw [OrderedSet.toList_insert_of_not_mem inside, addAll_concat]

theorem addAll_union (known : OrderedSet Edge) (es : List Edge) :
    empty.addAll (known.union (.ofList es)).toList = (empty.addAll known.toList).addAll es := by
  induction es using List.reverseRecOn with
  | nil =>
    rw [OrderedSet.ofList_nil, OrderedSet.union_empty]
    rfl
  | append_singleton es e ih =>
    rw [OrderedSet.ofList_concat, OrderedSet.union_insert, addAll_insert, ih, addAll_concat]

theorem Filled.add (filled : T.Filled) (e : Edge) : (T.add e).Filled := by
  intro r member
  rcases mem_change member with old | ⟨cells, origin, rfl⟩
  · exact filled r old
  · refine ⟨change_ne_nil, ?_⟩
    intro c inside
    rcases mem_change inside with old | ⟨ts, _, rfl⟩
    · rcases origin with rfl | there
      · contradiction
      · exact (filled _ there).2 c old
    · have target : e.target ∈ ts.insert e.target := OrderedSet.mem_insert.mpr (Or.inl rfl)
      exact List.ne_nil_of_mem target

theorem Filled.addAll (filled : T.Filled) (es : List Edge) : (T.addAll es).Filled := by
  induction es generalizing T with
  | nil => exact filled
  | cons e es ih => exact ih (filled.add e)

theorem filled_empty : Table.empty.Filled := by
  intro r member
  contradiction

end Table

namespace Automaton

variable {A B : Automaton} {es : List Edge} {e : Edge} {s : State} {l : Label}

/-- The edges, put into a table in the order in which they came. -/
def table (A : Automaton) : Table := Table.empty.addAll A.edges.toList

theorem table_addEdges (A : Automaton) (es : List Edge) :
    (A.addEdges es).table = A.table.addAll es :=
  Table.addAll_union A.edges es

theorem table_addEdge (A : Automaton) (e : Edge) : (A.addEdge e).table = A.table.add e :=
  table_addEdges A [e]

theorem table_absorb (A B : Automaton) : (A.absorb B).table = A.table.merge B.table := by
  have joined := Table.addAll_union A.edges B.edges.toList
  rw [OrderedSet.ofList_toList] at joined
  have merged := Table.merge_addAll A.table .empty B.edges.toList
  exact joined.trans merged.symm

theorem sources_table (A : Automaton) : A.table.sources = A.sources :=
  Table.sources_addAll A.edges.toList

theorem labels_table (A : Automaton) (s : State) : (A.table.row s).labels = A.labelsFrom s :=
  Table.labels_addAll A.edges.toList s

theorem targets_table (A : Automaton) (s : State) (l : Label) :
    ((A.table.row s).targets l).toList = A.successors s l := by
  rw [table, Table.targets_addAll]
  exact firsts_of_nodup (A.nodup_successors s l)

/-- Edges are the same exactly if their tables are, whatever the orders. -/
theorem same_table_iff : A.table.Same B.table ↔ A.edges.Same B.edges := by
  have found (C : Automaton) (e : Edge) :
      e.target ∈ (C.table.row e.source).targets e.label ↔ e ∈ C.edges := by
    rw [← OrderedSet.mem_toList, targets_table]
    exact mem_successors
  constructor
  · rintro ⟨_, rows⟩ e
    rw [← found A e, ← found B e]
    exact (rows e.source).2 e.label e.target
  · intro edges
    refine ⟨fun s => ?_, fun s => ⟨fun l => ?_, fun l t => ?_⟩⟩
    · simp only [sources_table, mem_sources, edges _]
    · simp only [labels_table, mem_labelsFrom, edges _]
    · exact (found A ⟨s, l, t⟩).trans ((edges _).trans (found B ⟨s, l, t⟩).symm)

theorem filled_table (A : Automaton) : A.table.Filled :=
  Table.filled_empty.addAll A.edges.toList

end Automaton

namespace Fragment

theorem table_concatenate (A B : Automaton) :
    (concatenate A B).table = (A.table.addAll (finalEdges A B.start)).merge B.table := by
  rw [concatenate, Automaton.table_absorb, ← Automaton.table_addEdges]
  rfl

theorem table_union (A B : Automaton) (names : NameSupply) :
    (union A B names).1.table =
      ((A.table.merge B.table).add ⟨⟨names.issued⟩, .epsilon, A.start⟩).add
        ⟨⟨names.issued⟩, .epsilon, B.start⟩ := by
  rw [← Automaton.table_absorb, ← Automaton.table_addEdge, ← Automaton.table_addEdge]
  rfl

theorem table_repetition (A : Automaton) (names : NameSupply) :
    (repetition A names).1.table =
      (A.table.addAll (finalEdges A A.start)).add ⟨⟨names.issued⟩, .epsilon, A.start⟩ := by
  rw [← Automaton.table_addEdges, ← Automaton.table_addEdge]
  rfl

end Fragment

namespace History

/-- By the operations: the table that a history leads to holds the edges of its automaton. -/
theorem table_eq (h : History) : h.table = h.automaton.table := by
  induction h with
  | single s => rfl
  | setStart h s ih | addState h s ih | addFinal h s ih | removeFinal h s ih | addSymbols h cs ih =>
    exact ih
  | addEdge h e ih => rw [table, automaton, Automaton.table_addEdge, ih]
  | absorb h other ih ihOther => rw [table, automaton, Automaton.table_absorb, ih, ihOther]
  | empty names => rfl
  | primitive c names =>
    by_cases mark : c = emptyMark
    · rw [mark]
      rfl
    · rw [table, if_neg mark, automaton, Fragment.primitive_letter mark]
      rfl
  | concatenate first second ihFirst ihSecond =>
    rw [table, ihFirst, ihSecond]
    exact (Fragment.table_concatenate first.automaton second.automaton).symm
  | union first second names ihFirst ihSecond =>
    rw [table, ihFirst, ihSecond]
    exact (Fragment.table_union first.automaton second.automaton names).symm
  | repetition h names ih =>
    rw [table, ih]
    exact (Fragment.table_repetition h.automaton names).symm

theorem wellFormed (h : History) : h.automaton.WellFormed := by
  induction h with
  | single s => exact .single s
  | setStart h s ih => exact ih.setStart s
  | addState h s ih => exact ih.addState s
  | addFinal h s ih => exact ih.addFinal s
  | removeFinal h s ih => exact ih.removeFinal s
  | addEdge h e ih => exact ih.addEdge e
  | addSymbols h cs ih => exact ih.addSymbols cs
  | absorb h other ih ihOther => exact ih.absorb ihOther
  | empty names => exact Fragment.wellFormed_empty names
  | primitive c names => exact Fragment.wellFormed_primitive c names
  | concatenate first second ihFirst ihSecond => exact Fragment.wellFormed_concatenate ihFirst ihSecond
  | union first second names ihFirst ihSecond => exact Fragment.wellFormed_union ihFirst ihSecond names
  | repetition h names ih => exact Fragment.wellFormed_repetition ih names

/-- Whatever the operations were: start, final states and the ends of edges are states, the mark
    of the empty text is no symbol, and the check finds no flaw. The table that the operations
    lead to lists what the views of the edges list, and no row and no cell of it is empty. -/
theorem structure_kept (h : History) :
    h.automaton.WellFormed ∧ h.automaton.flaw? = none ∧ h.table.Filled ∧
    h.table.sources = h.automaton.sources ∧
    ∀ s, (h.table.row s).labels = h.automaton.labelsFrom s ∧
      ∀ l, ((h.table.row s).targets l).toList = h.automaton.successors s l := by
  have sound := h.wellFormed
  rw [h.table_eq]
  refine ⟨sound, Automaton.flaw?_eq_none_iff.mpr sound, h.automaton.filled_table,
    h.automaton.sources_table, ?_⟩
  intro s
  exact ⟨h.automaton.labels_table s, h.automaton.targets_table s⟩

end History

theorem Automaton.Built.wellFormed {A : Automaton} (built : A.Built) : A.WellFormed := by
  obtain ⟨h, rfl⟩ := built
  exact h.wellFormed

end Thompson
