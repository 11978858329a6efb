import Thompson.Automaton.Simulation

/-!
Paths edge by edge. An edge of either kind spells the word of its label, so a path is
nothing or an edge and the rest; most arguments need not tell the two kinds apart.
-/
namespace Thompson

/-- What an edge adds to the text that a path spells. -/
def Label.word : Label → List Char
  | .epsilon => []
  | .symbol c => [c]

namespace Automaton

variable {A B : Automaton} {s t u : State} {l : Label} {v w : List Char}

theorem Path.cons (edge : ⟨s, l, t⟩ ∈ A.edges) (tail : Path A t w u) :
    Path A s (l.word ++ w) u := by
  cases l with
  | epsilon => exact .epsilon edge tail
  | symbol c => exact .symbol edge tail

@[elab_as_elim]
theorem Path.edge_induction {motive : ∀ s w t, Path A s w t → Prop}
    (nil : ∀ s, motive s [] s (.nil s))
    (cons : ∀ {s l t w u} (edge : ⟨s, l, t⟩ ∈ A.edges) (tail : Path A t w u),
      motive t w u tail → motive s (l.word ++ w) u (.cons edge tail))
    {s : State} {w : List Char} {t : State} (path : Path A s w t) : motive s w t path := by
  induction path with
  | nil s => exact nil s
  | epsilon edge tail ih => exact cons edge tail ih
  | symbol edge tail ih => exact cons edge tail ih

theorem Path.nil_or_cons (path : Path A s w u) :
    (s = u ∧ w = []) ∨
      ∃ l t v, ⟨s, l, t⟩ ∈ A.edges ∧ Path A t v u ∧ w = l.word ++ v := by
  induction path using Path.edge_induction with
  | nil s => exact Or.inl ⟨rfl, rfl⟩
  | cons edge tail ih => exact Or.inr ⟨_, _, _, edge, tail, rfl⟩

theorem Path.eq_nil_of_no_edge (path : Path A s w u) (stuck : ∀ l t, ⟨s, l, t⟩ ∉ A.edges) :
    s = u ∧ w = [] := by
  rcases path.nil_or_cons with done | ⟨l, t, v, edge, _, _⟩
  · exact done
  · exact absurd edge (stuck l t)

theorem Path.cons_split {c : Char} (path : Path A s (c :: w) u) :
    ∃ x y, Path A s [] x ∧ ⟨x, .symbol c, y⟩ ∈ A.edges ∧ Path A y w u := by
  generalize spelled : c :: w = word at path
  induction path with
  | nil s => contradiction
  | epsilon edge tail ih =>
    obtain ⟨x, y, before, read, after⟩ := ih spelled
    exact ⟨x, y, .epsilon edge before, read, after⟩
  | symbol edge tail ih =>
    cases spelled
    exact ⟨_, _, .nil _, edge, tail⟩

theorem Path.of_closed (keep : State → Prop)
    (inside : ∀ e ∈ B.edges, keep e.source → e ∈ A.edges ∧ keep e.target)
    (path : Path B s w u) (start : keep s) : Path A s w u := by
  induction path using Path.edge_induction with
  | nil s => exact .nil s
  | cons edge tail ih =>
    have kept := inside _ edge start
    exact .cons kept.1 (ih kept.2)

theorem recognizes_of_one_edge (edges : ∀ e, e ∈ A.edges ↔ e = ⟨A.start, l, t⟩)
    (finals : ∀ s, s ∈ A.finals ↔ s = t) (different : A.start ≠ t) :
    A.Recognizes w ↔ w = l.word := by
  constructor
  · intro ⟨f, final, path⟩
    obtain rfl := (finals f).mp final
    rcases path.nil_or_cons with ⟨same, _⟩ | ⟨k, x, v, edge, tail, rfl⟩
    · exact absurd same different
    · obtain ⟨_, rfl, rfl⟩ := Edge.mk.inj ((edges _).mp edge)
      have stuck : ∀ k y, ⟨x, k, y⟩ ∉ A.edges := by
        intro k y edge
        exact different (Edge.mk.inj ((edges _).mp edge)).1.symm
      rw [(tail.eq_nil_of_no_edge stuck).2, List.append_nil]
  · intro spelled
    have path : Path A A.start (l.word ++ []) t := .cons ((edges _).mpr rfl) (.nil t)
    rw [List.append_nil, ← spelled] at path
    exact ⟨t, (finals t).mpr rfl, path⟩

theorem recognizes_addSymbols {cs : List Char} :
    (A.addSymbols cs).Recognizes w ↔ A.Recognizes w := by
  constructor
  · intro ⟨f, final, path⟩
    have same : Path A A.start w f := @Path.mono (A.addSymbols cs) A (fun _ => id) _ _ _ path
    exact ⟨f, final, same⟩
  · intro ⟨f, final, path⟩
    have same : Path (A.addSymbols cs) A.start w f :=
      @Path.mono A (A.addSymbols cs) (fun _ => id) _ _ _ path
    exact ⟨f, final, same⟩

end Automaton

end Thompson

/-!
What the search for epsilon edges finds. A state that is found has been visited, or its
visit is pending; every visit keeps this, and when nothing is pending any more the states
found are closed under epsilon edges. So the closure of some states consists of the
states to which paths that spell nothing lead from them.
-/
namespace Thompson.Automaton

variable {A : Automaton}

/-- The states from which a search may go on. -/
structure Exploring (A : Automaton) (found : OrderedSet State) (pending : List State) : Prop where
  found_of_pending : ∀ s ∈ pending, s ∈ found
  visited : ∀ s ∈ found, s ∉ pending → ∀ t, ⟨s, .epsilon, t⟩ ∈ A.edges → t ∈ found

theorem mem_newSuccessors {found : OrderedSet State} {s t : State} :
    t ∈ A.newSuccessors found s ↔ ⟨s, .epsilon, t⟩ ∈ A.edges ∧ t ∉ found := by
  simp [newSuccessors]

theorem Exploring.of_given (A : Automaton) (given : List State) :
    Exploring A (.ofList given) (OrderedSet.ofList given).toList.reverse := by
  constructor
  · intro s hs
    exact List.mem_reverse.mp hs
  · intro s hs absent
    exact absurd (List.mem_reverse.mpr hs) absent

theorem Exploring.visit {found : OrderedSet State} {s : State} {pending : List State}
    (h : Exploring A found (s :: pending)) :
    Exploring A (found.union (.ofList (A.newSuccessors found s)))
      ((A.newSuccessors found s).reverse ++ pending) := by
  constructor
  · intro x hx
    simp only [List.mem_append, List.mem_reverse] at hx
    simp only [OrderedSet.mem_union, OrderedSet.mem_ofList]
    rcases hx with new | old
    · exact Or.inr new
    · exact Or.inl (h.found_of_pending x (List.mem_cons_of_mem s old))
  · intro x hx absent t edge
    simp only [List.mem_append, List.mem_reverse, not_or] at absent
    simp only [OrderedSet.mem_union, OrderedSet.mem_ofList] at hx ⊢
    have known : x ∈ found := hx.resolve_right absent.1
    by_cases there : t ∈ found
    · exact Or.inl there
    · by_cases same : x = s
      · subst x
        exact Or.inr (mem_newSuccessors.mpr ⟨edge, there⟩)
      · have notPending : x ∉ s :: pending := by
          simp only [List.mem_cons, not_or]
          exact ⟨same, absent.2⟩
        exact Or.inl (h.visited x known notPending t edge)

theorem mem_explore_of_mem (found : OrderedSet State) (pending : List State) {s : State}
    (h : s ∈ found) : s ∈ (A.explore found pending).1 := by
  fun_induction explore A found pending with
  | case1 found => exact h
  | case2 found x pending new all visits run ih =>
    rw [run] at ih
    exact ih (OrderedSet.mem_union.mpr (Or.inl h))

theorem explore_closed {found : OrderedSet State} {pending : List State}
    (h : Exploring A found pending) {s t : State} (hs : s ∈ (A.explore found pending).1)
    (edge : ⟨s, .epsilon, t⟩ ∈ A.edges) : t ∈ (A.explore found pending).1 := by
  fun_induction explore A found pending with
  | case1 found => exact h.visited s hs (by simp) t edge
  | case2 found x pending new all visits run ih =>
    rw [run] at ih
    exact ih h.visit hs

theorem path_of_mem_explore {found : OrderedSet State} {pending : List State}
    (h : Exploring A found pending) {t : State} (ht : t ∈ (A.explore found pending).1) :
    ∃ s ∈ found, Path A s [] t := by
  fun_induction explore A found pending with
  | case1 found => exact ⟨t, ht, .nil t⟩
  | case2 found x pending new all visits run ih =>
    rw [run] at ih
    obtain ⟨s, hs, path⟩ := ih h.visit ht
    simp only [OrderedSet.mem_union, OrderedSet.mem_ofList] at hs
    rcases hs with old | fresh
    · exact ⟨s, old, path⟩
    · have edge := (mem_newSuccessors.mp fresh).1
      exact ⟨x, h.found_of_pending x (by simp), .epsilon edge path⟩

def Settled (A : Automaton) (current : OrderedSet State) : Prop :=
  ∀ s ∈ current, ∀ t, ⟨s, .epsilon, t⟩ ∈ A.edges → t ∈ current

theorem Path.mem_of_settled {keep : OrderedSet State} (settled : A.Settled keep) {s t : State}
    (path : Path A s [] t) (start : s ∈ keep) : t ∈ keep := by
  generalize spelled : ([] : List Char) = w at path
  induction path with
  | nil s => exact start
  | epsilon edge tail ih => exact ih (settled _ start _ edge) spelled
  | symbol edge tail ih => contradiction

theorem settled_closure (given : List State) : A.Settled (A.closure given) := by
  intro s hs t edge
  exact explore_closed (.of_given A given) hs edge

theorem mem_closure {given : List State} {t : State} :
    t ∈ A.closure given ↔ ∃ s ∈ given, Path A s [] t := by
  constructor
  · intro ht
    obtain ⟨s, hs, path⟩ := path_of_mem_explore (.of_given A given) ht
    exact ⟨s, OrderedSet.mem_ofList.mp hs, path⟩
  · intro ⟨s, hs, path⟩
    have start : s ∈ A.closure given := mem_explore_of_mem _ _ (OrderedSet.mem_ofList.mpr hs)
    exact path.mem_of_settled (settled_closure given) start

end Thompson.Automaton
