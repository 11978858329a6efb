import Mathlib.Data.List.Nodup
import Thompson.Automaton.Listing
import Thompson.Proofs.Automaton.Tables
import Thompson.Proofs.JsonTree.RoundTrip

/-!
An automaton from its JSON form. The list of transitions is grouped by source and in it by label, and
so it brings sources, labels and targets in the order in which they are to be used: edges put in
again in that order make the same table. The other lists are gone through as they were written. So
nothing is lost, although the edges came in another order at first.
-/
namespace Thompson

section Grouping

variable {α κ : Type} [DecidableEq κ] {key : α → κ} {ks : List κ} {f : κ → List α}

theorem firsts_of_constant {xs : List κ} {k : κ} (some : xs ≠ []) (constant : ∀ x ∈ xs, x = k) :
    firsts xs = [k] := by
  cases xs with
  | nil => exact absurd rfl some
  | cons x xs =>
    obtain rfl := constant x List.mem_cons_self
    have none : (firsts xs).filter (· ≠ x) = [] := by
      refine List.filter_eq_nil_iff.mpr fun y hy => ?_
      simpa using constant y (List.mem_cons_of_mem x (mem_firsts.mp hy))
    rw [firsts, none]

theorem firsts_keys (distinct : ks.Nodup) (filled : ∀ k ∈ ks, f k ≠ [])
    (keys : ∀ k ∈ ks, ∀ x ∈ f k, key x = k) : firsts ((ks.flatMap f).map key) = ks := by
  induction ks with
  | nil => rfl
  | cons k ks ih =>
    obtain ⟨new, distinct⟩ := List.nodup_cons.mp distinct
    have same : ∀ j ∈ (f k).map key, j = k := by
      intro j hj
      obtain ⟨x, hx, rfl⟩ := List.mem_map.mp hj
      exact keys k List.mem_cons_self x hx
    have first : firsts ((f k).map key) = [k] :=
      firsts_of_constant (by simpa using filled k List.mem_cons_self) same
    have later := ih distinct (fun j hj => filled j (List.mem_cons_of_mem k hj))
      fun j hj => keys j (List.mem_cons_of_mem k hj)
    have kept : ks.filter (· ∉ (f k).map key) = ks := by
      refine List.filter_eq_self.mpr fun j hj => decide_eq_true fun known => ?_
      exact new (same j known ▸ hj)
    rw [List.flatMap_cons, List.map_append, firsts_append, first, later, kept]
    rfl

theorem filter_key (distinct : ks.Nodup) (keys : ∀ k ∈ ks, ∀ x ∈ f k, key x = k) (k : κ) :
    (ks.flatMap f).filter (key · = k) = if k ∈ ks then f k else [] := by
  induction ks with
  | nil => rfl
  | cons j ks ih =>
    obtain ⟨new, distinct⟩ := List.nodup_cons.mp distinct
    have later := ih distinct fun i hi => keys i (List.mem_cons_of_mem j hi)
    have group := keys j List.mem_cons_self
    rw [List.flatMap_cons, List.filter_append, later]
    by_cases here : k = j
    · subst k
      rw [if_neg new, if_pos List.mem_cons_self, List.append_nil]
      exact List.filter_eq_self.mpr fun x hx => decide_eq_true (group x hx)
    · have none : (f j).filter (key · = k) = [] :=
        List.filter_eq_nil_iff.mpr fun x hx => by simpa [group x hx] using Ne.symm here
      simp [none, here]

omit [DecidableEq κ] in
theorem nodup_groups (distinct : ks.Nodup) (each : ∀ k ∈ ks, (f k).Nodup)
    (keys : ∀ k ∈ ks, ∀ x ∈ f k, key x = k) : (ks.flatMap f).Nodup := by
  induction ks with
  | nil => exact List.nodup_nil
  | cons k ks ih =>
    obtain ⟨new, distinct⟩ := List.nodup_cons.mp distinct
    have later := ih distinct (fun j hj => each j (List.mem_cons_of_mem k hj))
      fun j hj => keys j (List.mem_cons_of_mem k hj)
    rw [List.flatMap_cons]
    refine List.nodup_append.mpr ⟨each k List.mem_cons_self, later, ?_⟩
    rintro x hx y hy rfl
    obtain ⟨j, hj, member⟩ := List.mem_flatMap.mp hy
    have here := keys k List.mem_cons_self x hx
    have there := keys j (List.mem_cons_of_mem k hj) x member
    exact new (here.symm.trans there ▸ hj)

end Grouping

namespace Automaton

variable {A B : Automaton} {s : State} {l : Label}

def edgesFrom (A : Automaton) (s : State) : List Edge :=
  (A.labelsFrom s).flatMap fun l => (A.successors s l).map fun t => ⟨s, l, t⟩

theorem transitions_eq (A : Automaton) : A.transitions = A.sources.flatMap A.edgesFrom := by
  simp only [transitions, outgoing, List.flatMap_map]
  rfl

theorem source_of_mem_edgesFrom {e : Edge} (member : e ∈ A.edgesFrom s) : e.source = s := by
  obtain ⟨l, _, listed⟩ := List.mem_flatMap.mp member
  obtain ⟨t, _, rfl⟩ := List.mem_map.mp listed
  rfl

theorem edgesFrom_ne_nil (known : s ∈ A.sources) : A.edgesFrom s ≠ [] := by
  obtain ⟨e, edge, rfl⟩ := mem_sources.mp known
  have label : e.label ∈ A.labelsFrom e.source := mem_labelsFrom.mpr ⟨e.target, edge⟩
  have target : e.target ∈ A.successors e.source e.label := mem_successors.mpr edge
  exact List.ne_nil_of_mem (List.mem_flatMap.mpr ⟨_, label, List.mem_map_of_mem target⟩)

theorem edgesFrom_of_not_mem (unknown : s ∉ A.sources) : A.edgesFrom s = [] := by
  have none : A.labelsFrom s = [] := by
    refine List.eq_nil_iff_forall_not_mem.mpr fun l label => ?_
    obtain ⟨t, edge⟩ := mem_labelsFrom.mp label
    exact unknown (mem_sources.mpr ⟨_, edge, rfl⟩)
  rw [edgesFrom, none]
  rfl

theorem filter_source_transitions (A : Automaton) (s : State) :
    A.transitions.filter (·.source = s) = A.edgesFrom s := by
  have group : A.transitions.filter (·.source = s) = if s ∈ A.sources then A.edgesFrom s else [] := by
    rw [transitions_eq]
    exact filter_key (nodup_firsts _) (fun _ _ _ => source_of_mem_edgesFrom) s
  rw [group]
  split
  · rfl
  · rename_i unknown
    exact (edgesFrom_of_not_mem unknown).symm

theorem label_of_mem_group {e : Edge} (member : e ∈ (A.successors s l).map fun t => ⟨s, l, t⟩) :
    e.label = l := by
  obtain ⟨t, _, rfl⟩ := List.mem_map.mp member
  rfl

theorem filter_label_edgesFrom (A : Automaton) (s : State) (l : Label) :
    (A.edgesFrom s).filter (·.label = l) = (A.successors s l).map fun t => ⟨s, l, t⟩ := by
  have group : (A.edgesFrom s).filter (·.label = l) =
      if l ∈ A.labelsFrom s then (A.successors s l).map fun t => ⟨s, l, t⟩ else [] :=
    filter_key (A.nodup_labelsFrom s) (fun _ _ _ => label_of_mem_group) l
  rw [group]
  split
  · rfl
  · rename_i unknown
    have none : A.successors s l = [] := by
      refine List.eq_nil_iff_forall_not_mem.mpr fun t target => ?_
      exact unknown (mem_labelsFrom.mpr ⟨t, mem_successors.mp target⟩)
    rw [none]
    rfl

theorem nodup_transitions (A : Automaton) : A.transitions.Nodup := by
  rw [transitions_eq]
  refine nodup_groups (nodup_firsts _) (fun s _ => ?_) fun _ _ _ => source_of_mem_edgesFrom
  refine nodup_groups (A.nodup_labelsFrom s) (fun l _ => ?_) fun _ _ _ => label_of_mem_group
  exact List.Nodup.map (fun t u same => (Edge.mk.inj same).2.2) (A.nodup_successors s l)

section Again

variable (same : B.edges.toList = A.transitions)
include same

theorem sources_again : B.sources = A.sources := by
  rw [sources, same, transitions_eq]
  exact firsts_keys (nodup_firsts _) (fun _ => edgesFrom_ne_nil) fun _ _ _ => source_of_mem_edgesFrom

theorem labelsFrom_again (s : State) : B.labelsFrom s = A.labelsFrom s := by
  rw [labelsFrom, same, filter_source_transitions]
  refine firsts_keys (A.nodup_labelsFrom s) ?_ fun _ _ _ => label_of_mem_group
  intro l label nothing
  obtain ⟨t, edge⟩ := mem_labelsFrom.mp label
  have target : t ∈ A.successors s l := mem_successors.mpr edge
  rw [List.map_eq_nil_iff.mp nothing] at target
  contradiction

theorem successors_again (s : State) (l : Label) : B.successors s l = A.successors s l := by
  have grouped : B.successors s l =
      ((A.transitions.filter (·.source = s)).filter (·.label = l)).map Edge.target := by
    rw [successors, same, List.filter_filter, ← List.filterMap_eq_map, List.filterMap_filter]
    congr 1
    funext e
    by_cases here : e.source = s <;> by_cases label : e.label = l <;> simp [here, label]
  rw [grouped, filter_source_transitions, filter_label_edgesFrom, List.map_map]
  exact List.map_id _

/-- The transitions in their order make the same table. -/
theorem transitions_again : B.transitions = A.transitions := by
  have groups : B.edgesFrom = A.edgesFrom := by
    funext s
    simp only [edgesFrom, labelsFrom_again same, successors_again same]
  rw [transitions_eq, transitions_eq, sources_again same, groups]

end Again

section Assembling

variable {first : State} {rest finals : List State} {es : List Edge}

theorem foldl_insert {α : Type} [DecidableEq α] (xs ys : List α) :
    ys.foldl OrderedSet.insert (.ofList xs) = .ofList (xs ++ ys) := by
  induction ys generalizing xs with
  | nil => rw [List.append_nil]; rfl
  | cons y ys ih =>
    rw [List.foldl_cons, ← OrderedSet.ofList_concat, ih, List.append_assoc]
    rfl

theorem foldl_addState (A : Automaton) (ss : List State) :
    ss.foldl addState A = { A with states := ss.foldl OrderedSet.insert A.states } := by
  induction ss generalizing A with
  | nil => rfl
  | cons s ss ih => exact ih (A.addState s)

theorem addEdge_of_mem {e : Edge} (source : e.source ∈ A.states) (target : e.target ∈ A.states) :
    A.addEdge e = { A with edges := A.edges.insert e } := by
  have ends : OrderedSet.ofList [e.source, e.target] =
      (OrderedSet.empty.insert e.source).insert e.target :=
    OrderedSet.ofList_concat [e.source] e.target
  have states : A.states.union (.ofList [e.source, e.target]) = A.states := by
    rw [ends, OrderedSet.union_insert, OrderedSet.union_insert, OrderedSet.union_empty,
      OrderedSet.insert_of_mem source, OrderedSet.insert_of_mem target]
  have edges : A.edges.union (.ofList [e]) = A.edges.insert e := by
    have one : OrderedSet.ofList [e] = OrderedSet.empty.insert e := OrderedSet.ofList_concat [] e
    rw [one, OrderedSet.union_insert, OrderedSet.union_empty]
  simp only [addEdge, addEdges, List.flatMap_cons, List.flatMap_nil, List.append_nil, Edge.ends,
    states, edges]

theorem foldl_addEdge (ends : ∀ e ∈ es, e.source ∈ A.states ∧ e.target ∈ A.states) :
    es.foldl addEdge A = { A with edges := es.foldl OrderedSet.insert A.edges } := by
  induction es generalizing A with
  | nil => rfl
  | cons e es ih =>
    obtain ⟨source, target⟩ := ends e List.mem_cons_self
    rw [List.foldl_cons, addEdge_of_mem source target]
    exact ih (A := { A with edges := A.edges.insert e })
      fun d hd => ends d (List.mem_cons_of_mem e hd)

theorem foldl_addFinal (known : ∀ s ∈ finals, s ∈ A.states) :
    finals.foldl addFinal A = { A with finals := finals.foldl OrderedSet.insert A.finals } := by
  induction finals generalizing A with
  | nil => rfl
  | cons s finals ih =>
    have one : A.addFinal s = { A with finals := A.finals.insert s } := by
      rw [addFinal, addState_of_mem (known s List.mem_cons_self)]
    rw [List.foldl_cons, one]
    exact ih (A := { A with finals := A.finals.insert s })
      fun t ht => known t (List.mem_cons_of_mem s ht)

theorem insertAll_toList {cs : SymbolSet} (noMark : emptyMark ∉ cs) :
    SymbolSet.empty.insertAll (cs.toList.filter (· ≠ emptyMark)) = cs := by
  apply SymbolSet.eq_of_same_members
  intro c
  simp only [SymbolSet.mem_insertAll, List.mem_filter, SymbolSet.mem_toList,
    SymbolSet.not_mem_empty, or_false, decide_eq_true_eq, and_iff_left_iff_imp]
  rintro member rfl
  exact noMark member

/-- Put together from its lists, an automaton differs at most in the order of its edges. -/
theorem assemble_eq (sound : A.WellFormed) (states : A.states.toList = first :: rest) :
    assemble A.start first rest A.finals.toList A.alphabet.toList A.transitions =
      { A with edges := .ofList A.transitions } := by
  have joined : rest.foldl OrderedSet.insert (.singleton first) = A.states := by
    have one : OrderedSet.singleton first = .ofList [first] := rfl
    rw [one, foldl_insert, List.singleton_append, ← states, OrderedSet.ofList_toList]
  have ends : ∀ e ∈ A.transitions, e.source ∈ A.states ∧ e.target ∈ A.states := by
    intro e he
    have edge := mem_transitions.mp he
    exact ⟨sound.source_mem e edge, sound.target_mem e edge⟩
  have edges : A.transitions.foldl OrderedSet.insert .empty = .ofList A.transitions :=
    foldl_insert [] A.transitions
  have finals : A.finals.toList.foldl OrderedSet.insert .empty = A.finals :=
    (foldl_insert [] A.finals.toList).trans (OrderedSet.ofList_toList A.finals)
  simp only [assemble, foldl_addState, single, joined]
  rw [foldl_addEdge (A := ⟨first, A.states, .empty, .empty, .empty⟩) ends,
    foldl_addFinal (A := ⟨first, A.states, .empty, _, .empty⟩) sound.finals_subset]
  simp only [setStart, addState, addSymbols, OrderedSet.insert_of_mem sound.start_mem, edges,
    finals, insertAll_toList sound.emptyMark_not_mem]

end Assembling

section Reading

theorem mapM_map {α : Type} {read : JsonTree → Option α} {write : α → JsonTree} {xs : List α}
    (again : ∀ x ∈ xs, read (write x) = some x) : (xs.map write).mapM read = some xs := by
  induction xs with
  | nil => rfl
  | cons x xs ih =>
    have later := ih fun y hy => again y (List.mem_cons_of_mem x hy)
    simp [again x List.mem_cons_self, later]

theorem ofJson?_json {first : State} {rest : List State}
    (plain : ∀ e ∈ A.edges, e.label ≠ .symbol 'ε') (states : A.states.toList = first :: rest) :
    ofJson? A.json =
      some (assemble A.start first rest A.finals.toList A.alphabet.toList A.transitions) := by
  have name (s : State) : State.ofJson? s.json = some s := State.ofText?_text s
  have char (c : Char) : charOfJson? (.string c.toString) = some c := by
    simp [charOfJson?, onlyChar?]
  have edge : ∀ e ∈ A.transitions, Edge.ofJson? e.json = some e :=
    fun e he => Edge.ofJson?_json (plain e (mem_transitions.mp he))
  rw [json, states, List.map_cons, ofJson?]
  simp only [name, mapM_map fun s _ => name s, mapM_map fun c _ => char c, mapM_map edge]
  rfl

def ofText? (text : String) : Option Automaton := (JsonTree.ofText? text).bind ofJson?

end Reading

end Automaton

theorem Table.eq_of_views {T U : Table} (sources : T.sources = U.sources)
    (labels : ∀ s, (T.row s).labels = (U.row s).labels)
    (targets : ∀ s l, (T.row s).targets l = (U.row s).targets l) : T = U := by
  refine OrderedMap.eq_of_getD Row.empty sources fun s _ => ?_
  exact OrderedMap.eq_of_getD OrderedSet.empty (labels s) fun l _ => targets s l

theorem Automaton.table_again {A B : Automaton} (same : B.edges.toList = A.transitions) :
    B.table = A.table := by
  apply Table.eq_of_views
  · rw [sources_table, sources_table, sources_again same]
  · intro s
    rw [labels_table, labels_table, labelsFrom_again same]
  · intro s l
    apply OrderedSet.ext
    rw [targets_table, targets_table, successors_again same]

namespace History

variable {h g : History}

/-- What is read from the text is what the operations of the lists make. -/
theorem ofText?_json (h : History) (plain : ∀ e ∈ h.automaton.edges, e.label ≠ .symbol 'ε') :
    ∃ first rest, h.automaton.states.toList = first :: rest ∧
      Automaton.ofText? h.automaton.json.text = some (.assemble h.automaton.start first rest
        h.automaton.finals.toList h.automaton.alphabet.toList h.automaton.transitions) := by
  have some : h.automaton.states.toList ≠ [] := List.ne_nil_of_mem h.wellFormed.start_mem
  obtain ⟨first, rest, states⟩ := List.exists_cons_of_ne_nil some
  refine ⟨first, rest, states, ?_⟩
  rw [Automaton.ofText?, JsonTree.ofText?_text, Option.bind_some,
    Automaton.ofJson?_json plain states]

theorem same_of_text (plain : ∀ e ∈ h.automaton.edges, e.label ≠ .symbol 'ε')
    (plain' : ∀ e ∈ g.automaton.edges, e.label ≠ .symbol 'ε')
    (text : g.automaton.json.text = h.automaton.json.text) : g.automaton.Same h.automaton := by
  obtain ⟨first, rest, states, read⟩ := h.ofText?_json plain
  obtain ⟨first', rest', states', read'⟩ := g.ofText?_json plain'
  rw [text, read, Automaton.assemble_eq h.wellFormed states,
    Automaton.assemble_eq g.wellFormed states'] at read'
  obtain ⟨start, states, finals, edges, alphabet⟩ := Automaton.mk.inj (Option.some.inj read')
  refine ⟨start.symm, fun s => by rw [states], fun s => by rw [finals], ?_, alphabet.symm⟩
  · intro e
    have listed : e ∈ OrderedSet.ofList h.automaton.transitions ↔
        e ∈ OrderedSet.ofList g.automaton.transitions := by rw [edges]
    rw [OrderedSet.mem_ofList, OrderedSet.mem_ofList, Automaton.mem_transitions,
      Automaton.mem_transitions] at listed
    exact listed.symm

/-- Whatever the operations were, the JSON form loses nothing. Its text is read, and the lists in
    it, gone through by the operations of automata, lead to the same automaton: with the same orders
    of states, final states and transitions, the same table, and so the same text again. Hence
    automata with the same text are the same. -/
theorem json_lossless (h : History) (plain : ∀ e ∈ h.automaton.edges, e.label ≠ .symbol 'ε') :
    (∃ B first rest, Automaton.ofText? h.automaton.json.text = some B ∧
      h.automaton.states.toList = first :: rest ∧
      B = .assemble h.automaton.start first rest h.automaton.finals.toList
        h.automaton.alphabet.toList h.automaton.transitions ∧
      B.Same h.automaton ∧ B.states = h.automaton.states ∧ B.finals = h.automaton.finals ∧
      B.transitions = h.automaton.transitions ∧ B.table = h.table ∧
      B.json.text = h.automaton.json.text) ∧
    ∀ g : History, (∀ e ∈ g.automaton.edges, e.label ≠ .symbol 'ε') →
      g.automaton.json.text = h.automaton.json.text → g.automaton.Same h.automaton := by
  refine ⟨?_, fun g plain' text => same_of_text plain plain' text⟩
  obtain ⟨first, rest, states, read⟩ := h.ofText?_json plain
  refine ⟨_, first, rest, read, states, rfl, ?_⟩
  rw [Automaton.assemble_eq h.wellFormed states, h.table_eq]
  have listed : (OrderedSet.ofList h.automaton.transitions).toList = h.automaton.transitions :=
    firsts_of_nodup h.automaton.nodup_transitions
  have edges : ({ h.automaton with edges := .ofList h.automaton.transitions } :
      Automaton).edges.toList = h.automaton.transitions := listed
  have transitions := Automaton.transitions_again edges
  refine ⟨⟨rfl, fun _ => .rfl, fun _ => .rfl, ?_, rfl⟩, rfl, rfl, transitions,
    Automaton.table_again edges, ?_⟩
  · intro e
    rw [OrderedSet.mem_ofList, Automaton.mem_transitions]
  · simp only [Automaton.json, transitions]

theorem json_lossless_interleaved : ∃ h : History, ∃ B,
    (∀ e ∈ h.automaton.edges, e.label ≠ .symbol 'ε') ∧
      h.automaton.edges.toList ≠ h.automaton.transitions ∧
      Automaton.ofText? h.automaton.json.text = some B ∧ B.Same h.automaton ∧
      B.edges.toList = h.automaton.transitions := by
  let quote : Edge := ⟨⟨0⟩, .symbol '"', ⟨1⟩⟩
  let back : Edge := ⟨⟨1⟩, .epsilon, ⟨0⟩⟩
  let through : Edge := ⟨⟨0⟩, .epsilon, ⟨2⟩⟩
  let other : History := ((single ⟨2⟩).addEdge back).addEdge through
  let h : History := (((((single ⟨0⟩).addEdge quote).absorb other).addFinal ⟨2⟩).addSymbols
    ['\\']).setStart ⟨1⟩
  have plain : ∀ e ∈ h.automaton.edges, e.label ≠ .symbol 'ε' := by
    have listed : ∀ e ∈ h.automaton.edges.toList, e.label ≠ .symbol 'ε' := by decide
    exact listed
  obtain ⟨B, first, rest, read, states, rfl, same, -⟩ := (json_lossless h plain).1
  refine ⟨h, _, plain, by decide, read, same, ?_⟩
  rw [Automaton.assemble_eq h.wellFormed states]
  exact firsts_of_nodup h.automaton.nodup_transitions

end History

end Thompson
