import Thompson.Automaton.Basic

/-!
Paths through an automaton and the texts that they spell. An epsilon edge spells
nothing. Whether a text is recognized is said here without any search: some path
from the start to a final state spells it.
-/
namespace Thompson.Automaton

/-- A way along the edges from the first state to the last, with the text it spells. -/
inductive Path (A : Automaton) : State → List Char → State → Prop where
  | nil (s : State) : Path A s [] s
  | epsilon {s t u : State} {w : List Char} (edge : ⟨s, .epsilon, t⟩ ∈ A.edges)
      (tail : Path A t w u) : Path A s w u
  | symbol {s t u : State} {c : Char} {w : List Char} (edge : ⟨s, .symbol c, t⟩ ∈ A.edges)
      (tail : Path A t w u) : Path A s (c :: w) u

/-- Some path from the start to a final state spells the text. -/
def Recognizes (A : Automaton) (w : List Char) : Prop := ∃ s ∈ A.finals, Path A A.start w s

theorem Path.of_edge {A : Automaton} {s t : State} {l : Label} (edge : ⟨s, l, t⟩ ∈ A.edges) :
    ∃ w, Path A s w t := by
  cases l with
  | epsilon => exact ⟨[], .epsilon edge (.nil t)⟩
  | symbol c => exact ⟨[c], .symbol edge (.nil t)⟩

theorem Path.append {A : Automaton} {s t u : State} {v w : List Char} (first : Path A s v t)
    (second : Path A t w u) : Path A s (v ++ w) u := by
  induction first with
  | nil s => exact second
  | epsilon edge tail ih => exact .epsilon edge (ih second)
  | symbol edge tail ih => exact .symbol edge (ih second)

theorem Path.mono {A B : Automaton} (more : ∀ e ∈ A.edges, e ∈ B.edges) {s t : State}
    {w : List Char} (path : Path A s w t) : Path B s w t := by
  induction path with
  | nil s => exact .nil s
  | epsilon edge tail ih => exact .epsilon (more _ edge) ih
  | symbol edge tail ih => exact .symbol (more _ edge) ih

/-- A set of states that no edge leaves holds the whole of a path that begins in it. -/
theorem Path.stays {A : Automaton} {keep : State → Prop}
    (closed : ∀ e ∈ A.edges, keep e.source → keep e.target) {s t : State} {w : List Char}
    (path : Path A s w t) (start : keep s) : keep t := by
  induction path with
  | nil s => exact start
  | epsilon edge tail ih => exact ih (closed _ edge start)
  | symbol edge tail ih => exact ih (closed _ edge start)

/-!
Running an input on every path at once. A search finds the states that epsilon
edges lead to; a step moves a set of states along one symbol and searches again.
The search ends because every visit uses up one of the targets not found so far.
-/

def newSuccessors (A : Automaton) (found : OrderedSet State) (s : State) : List State :=
  (A.successors s .epsilon).filter (· ∉ found)

def unseen (A : Automaton) (found : OrderedSet State) : Nat :=
  ((firsts (A.edges.toList.map Edge.target)).filter (· ∉ found)).length

theorem length_filter_not_mem_add {α : Type} [DecidableEq α] {xs ys : List α} (distinct : ys.Nodup)
    (inside : ys ⊆ xs) : (xs.filter (· ∉ ys)).length + ys.length ≤ xs.length := by
  have within : ys ⊆ xs.filter (· ∈ ys) := fun y hy =>
    List.mem_filter.mpr ⟨inside hy, decide_eq_true hy⟩
  have bound := distinct.length_le_of_subset within
  have parts := List.length_eq_countP_add_countP (fun x => decide (x ∈ ys)) (l := xs)
  simp only [List.countP_eq_length_filter, decide_eq_true_eq] at parts
  omega

theorem unseen_union (A : Automaton) (found : OrderedSet State) (s : State) :
    A.unseen (found.union (.ofList (A.newSuccessors found s))) +
      (A.newSuccessors found s).length ≤ A.unseen found := by
  have inside : A.newSuccessors found s ⊆
      (firsts (A.edges.toList.map Edge.target)).filter (· ∉ found) := by
    intro t ht
    obtain ⟨target, absent⟩ := List.mem_filter.mp ht
    have edge : (⟨s, .epsilon, t⟩ : Edge) ∈ A.edges.toList := mem_successors.mp target
    exact List.mem_filter.mpr ⟨mem_firsts.mpr (List.mem_map.mpr ⟨_, edge, rfl⟩), absent⟩
  have bound := length_filter_not_mem_add ((A.nodup_successors s .epsilon).filter _) inside
  rw [List.filter_filter] at bound
  refine Nat.le_trans (Nat.add_le_add_right (Nat.le_of_eq ?_) _) bound
  simp [unseen, not_or, Bool.and_comm, newSuccessors]

/-- Visits pending states, the first of them next; what a visit finds is put in
    front, the last found first. Gives all states found, and the visits in order. -/
def explore (A : Automaton) (found : OrderedSet State) :
    List State → OrderedSet State × List State
  | [] => (found, [])
  | s :: pending =>
    let new := A.newSuccessors found s
    let (all, visits) := explore A (found.union (.ofList new)) (new.reverse ++ pending)
    (all, s :: visits)
termination_by pending => A.unseen found + pending.length
decreasing_by
  have := A.unseen_union found s
  simp only [List.length_append, List.length_reverse, List.length_cons]
  omega

/-- All states that epsilon edges lead to from the given ones, which come first. -/
def closure (A : Automaton) (given : List State) : OrderedSet State :=
  (A.explore (.ofList given) (OrderedSet.ofList given).toList.reverse).1

def step (A : Automaton) (current : OrderedSet State) (c : Char) : OrderedSet State :=
  A.closure (current.toList.flatMap fun s => A.successors s (.symbol c))

def initial (A : Automaton) : OrderedSet State := A.closure [A.start]

/-- The set at the outset and after each character. -/
def subsetsFrom (A : Automaton) (current : OrderedSet State) : List Char → List (OrderedSet State)
  | [] => [current]
  | c :: cs => current :: A.subsetsFrom (A.step current c) cs

def subsets (A : Automaton) (input : List Char) : List (OrderedSet State) :=
  A.subsetsFrom A.initial input

def reached (A : Automaton) (input : List Char) : OrderedSet State := input.foldl A.step A.initial

/-- Stops as soon as no state is left. -/
def acceptsFrom (A : Automaton) (current : OrderedSet State) : List Char → Bool
  | [] => current.toList.any A.isFinal
  | c :: cs =>
    let next := A.step current c
    if next.toList.isEmpty then false else A.acceptsFrom next cs

def accepts (A : Automaton) (input : List Char) : Bool := A.acceptsFrom A.initial input

end Thompson.Automaton
