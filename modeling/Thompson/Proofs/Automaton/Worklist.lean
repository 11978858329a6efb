import Thompson.Proofs.Automaton.Paths

/-!
The search for epsilon edges, one visit at a time. A state is found once and then waits for its
visit, so every state found was visited or waits, and none of them twice; when none waits any more
the visits are the states found. The search as it is run visits in the same order and ends, for
every visit uses up a state that was not found before.
-/
namespace Thompson

/-- A search under way: the states found, those that wait, the next one first, and those visited. -/
structure Search where
  found : OrderedSet State
  waiting : List State
  visits : List State

namespace Search

variable {A : Automaton} {r next last : Search} {given : List State} {n : Nat}

def ofGiven (given : List State) : Search :=
  ⟨.ofList given, (OrderedSet.ofList given).toList.reverse, []⟩

def meet (r : Search) (t : State) : Search :=
  if t ∈ r.found then r else { r with found := r.found.insert t, waiting := t :: r.waiting }

/-- Visits the next state, if one waits, and meets the states behind its epsilon edges in turn. -/
def visit (A : Automaton) (r : Search) : Option Search :=
  match r.waiting with
  | [] => none
  | s :: waiting =>
    some ((A.successors s .epsilon).foldl meet ⟨r.found, waiting, r.visits ++ [s]⟩)

/-- So many visits lead to a search in which none waits. -/
inductive Ends (A : Automaton) : Nat → Search → Search → Prop where
  | idle {r : Search} (idle : r.visit A = none) : Ends A 0 r r
  | visit {r next last : Search} {n : Nat} (one : r.visit A = some next) (rest : Ends A n next last) :
      Ends A (n + 1) r last

section Once

/-- Every state that was found was visited or waits, and none of them twice. -/
def Once (r : Search) : Prop := (r.visits ++ r.waiting).Perm r.found.toList

theorem once_ofGiven (given : List State) : (ofGiven given).Once := List.reverse_perm _

theorem Once.meet (once : r.Once) (t : State) : (r.meet t).Once := by
  unfold Search.meet
  split
  · exact once
  · rename_i new
    have longer : (r.visits ++ t :: r.waiting).Perm (r.found.toList ++ [t]) :=
      List.perm_middle.trans ((once.cons t).trans (List.perm_append_singleton t _).symm)
    rwa [← OrderedSet.toList_insert_of_not_mem new] at longer

theorem Once.meets (once : r.Once) (ts : List State) : (ts.foldl Search.meet r).Once := by
  induction ts generalizing r with
  | nil => exact once
  | cons t ts ih => exact ih (once.meet t)

theorem Once.visit (once : r.Once) (one : r.visit A = some next) : next.Once := by
  obtain ⟨found, waiting, visits⟩ := r
  cases waiting with
  | nil => contradiction
  | cons s waiting =>
    obtain rfl := Option.some.inj one
    apply Once.meets
    simpa [Once] using once

theorem Ends.once (ends : Ends A n r last) (once : r.Once) : last.Once := by
  induction ends with
  | idle idle => exact once
  | visit one rest ih => exact ih (once.visit one)

theorem Ends.waiting_eq_nil (ends : Ends A n r last) : last.waiting = [] := by
  induction ends with
  | @idle r idle =>
    cases waiting : r.waiting with
    | nil => rfl
    | cons s waiting' =>
      rw [Search.visit, waiting] at idle
      contradiction
  | visit one rest ih => exact ih

theorem Ends.visits_perm (ends : Ends A n r last) (once : r.Once) :
    last.visits.Perm last.found.toList := by
  have all := ends.once once
  rwa [Once, ends.waiting_eq_nil, List.append_nil] at all

end Once

section Run

variable {found : OrderedSet State} {waiting visits : List State} {s : State}

theorem foldl_meet {ts : List State} (distinct : ts.Nodup) :
    ts.foldl meet ⟨found, waiting, visits⟩ =
      ⟨found.union (.ofList (ts.filter (· ∉ found))), (ts.filter (· ∉ found)).reverse ++ waiting,
        visits⟩ := by
  induction ts generalizing found waiting with
  | nil => simp [OrderedSet.union_empty]
  | cons t ts ih =>
    obtain ⟨once, distinct⟩ := List.nodup_cons.mp distinct
    rw [List.foldl_cons]
    by_cases known : t ∈ found
    · have kept : (⟨found, waiting, visits⟩ : Search).meet t = ⟨found, waiting, visits⟩ := if_pos known
      rw [kept, ih distinct]
      simp [known]
    · have put : (⟨found, waiting, visits⟩ : Search).meet t =
          ⟨found.insert t, t :: waiting, visits⟩ := if_neg known
      have others : ts.filter (· ∉ found.insert t) = ts.filter (· ∉ found) := by
        apply List.filter_congr
        intro u member
        have different : u ≠ t := fun same => once (same ▸ member)
        simp [different]
      have all : (t :: ts).filter (· ∉ found) = t :: ts.filter (· ∉ found) := by simp [known]
      rw [put, ih distinct, others, all, OrderedSet.union_ofList_cons, List.reverse_cons,
        List.append_assoc, List.singleton_append]

theorem visit_cons : (⟨found, s :: waiting, visits⟩ : Search).visit A =
    some ⟨found.union (.ofList (A.newSuccessors found s)),
      (A.newSuccessors found s).reverse ++ waiting, visits ++ [s]⟩ := by
  rw [visit]
  exact congrArg some (foldl_meet (A.nodup_successors s .epsilon))

/-- The search that is run, with the visits that it makes. -/
theorem ends_explore (A : Automaton) (found : OrderedSet State) (waiting visits : List State) :
    Ends A (A.explore found waiting).2.length ⟨found, waiting, visits⟩
      ⟨(A.explore found waiting).1, [], visits ++ (A.explore found waiting).2⟩ := by
  fun_induction Automaton.explore A found waiting generalizing visits with
  | case1 found =>
    rw [List.append_nil]
    exact .idle rfl
  | case2 found s waiting new all later run ih =>
    have rest := ih (visits ++ [s])
    rw [run, List.append_assoc] at rest
    exact .visit visit_cons rest

end Run

end Search

namespace Automaton

variable {A : Automaton}

theorem prefix_explore (found : OrderedSet State) (waiting : List State) :
    found.toList <+: (A.explore found waiting).1.toList := by
  fun_induction explore A found waiting with
  | case1 found => exact List.prefix_refl _
  | case2 found s waiting new all visits run ih =>
    rw [run, OrderedSet.toList_union] at ih
    exact (List.prefix_append _ _).trans ih

theorem closure_closure (given : List State) :
    (A.closure (A.closure given).toList).Same (A.closure given) := by
  intro t
  rw [mem_closure]
  constructor
  · rintro ⟨s, known, path⟩
    exact path.mem_of_settled (settled_closure given) known
  · intro known
    exact ⟨t, known, .nil t⟩

theorem closure_append (given other : List State) :
    (A.closure (given ++ other)).Same ((A.closure given).union (A.closure other)) := by
  intro t
  simp only [OrderedSet.mem_union, mem_closure, List.mem_append, or_and_right, exists_or]

/-- Whatever the edges are and whichever states are given, the search ends after as many visits as
    states are found, and it visits each of these once. It finds the states to which paths lead
    that spell nothing; the given ones come first, in the order in which they are given. To search
    again finds nothing new, and states may as well be given one part after the other. -/
theorem closure_search (A : Automaton) (given : List State) :
    (∃ last, Search.Ends A (A.closure given).size (.ofGiven given) last ∧
      last.found = A.closure given ∧ last.visits.Perm (A.closure given).toList) ∧
    (A.closure given).toList.Nodup ∧
    (∀ t, t ∈ A.closure given ↔ ∃ s ∈ given, Path A s [] t) ∧
    firsts given <+: (A.closure given).toList ∧
    (A.closure (A.closure given).toList).Same (A.closure given) ∧
    ∀ other, (A.closure (given ++ other)).Same ((A.closure given).union (A.closure other)) := by
  have first : (OrderedSet.ofList given).toList <+: (A.closure given).toList := prefix_explore _ _
  refine ⟨?_, (A.closure given).nodup, fun t => mem_closure, first, closure_closure given,
    closure_append given⟩
  have ends := Search.ends_explore A (.ofList given) (OrderedSet.ofList given).toList.reverse []
  have perm := ends.visits_perm (Search.once_ofGiven given)
  have visits : (A.explore (.ofList given) (OrderedSet.ofList given).toList.reverse).2.length =
      (A.closure given).size := perm.length_eq
  rw [visits] at ends
  exact ⟨_, ends, rfl, perm⟩

-- The second state is given twice and the last one is unknown; a circle leads back to both.
example : ((((Automaton.single ⟨0⟩).addEdge ⟨⟨0⟩, .epsilon, ⟨1⟩⟩).addEdge ⟨⟨1⟩, .epsilon, ⟨0⟩⟩).closure
    [⟨1⟩, ⟨1⟩, ⟨7⟩]).toList = [⟨1⟩, ⟨7⟩, ⟨0⟩] := by decide +kernel

end Automaton

end Thompson
