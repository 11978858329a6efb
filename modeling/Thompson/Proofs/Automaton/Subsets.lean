import Thompson.Proofs.Automaton.Paths

/-!
Running an input on every path at once. The set after an input holds the states to which
paths lead that spell it, whatever the shape of the automaton; so an input is accepted
when it is recognized. The run may stop at an empty set because it would stay empty.
-/
namespace Thompson.Automaton

variable {A : Automaton}

theorem settled_initial : A.Settled A.initial := settled_closure [A.start]

theorem settled_step (current : OrderedSet State) (c : Char) : A.Settled (A.step current c) :=
  settled_closure _

theorem mem_initial {t : State} : t ∈ A.initial ↔ Path A A.start [] t := by
  simp [initial, mem_closure]

theorem mem_step {current : OrderedSet State} {c : Char} {t : State} :
    t ∈ A.step current c ↔
      ∃ s ∈ current, ∃ u, ⟨s, .symbol c, u⟩ ∈ A.edges ∧ Path A u [] t := by
  simp only [step, mem_closure, List.mem_flatMap, mem_successors, OrderedSet.mem_toList]
  constructor
  · rintro ⟨u, ⟨s, hs, edge⟩, path⟩
    exact ⟨s, hs, u, edge, path⟩
  · rintro ⟨s, hs, u, edge, path⟩
    exact ⟨u, ⟨s, hs, edge⟩, path⟩

/-- A settled set follows every path. -/
theorem mem_foldl_step {current : OrderedSet State} (settled : A.Settled current)
    {w : List Char} {t : State} :
    t ∈ w.foldl A.step current ↔ ∃ s ∈ current, Path A s w t := by
  induction w generalizing current with
  | nil =>
    constructor
    · intro ht
      exact ⟨t, ht, .nil t⟩
    · intro ⟨s, hs, path⟩
      exact path.mem_of_settled settled hs
  | cons c w ih =>
    rw [List.foldl_cons, ih (settled_step current c)]
    constructor
    · rintro ⟨v, hv, rest⟩
      obtain ⟨s, hs, u, edge, path⟩ := mem_step.mp hv
      exact ⟨s, hs, .symbol edge (path.append rest)⟩
    · rintro ⟨s, hs, path⟩
      obtain ⟨u, v, before, edge, after⟩ := path.cons_split
      have known : u ∈ current := before.mem_of_settled settled hs
      exact ⟨v, mem_step.mpr ⟨u, known, v, edge, .nil v⟩, after⟩

theorem mem_reached {w : List Char} {t : State} : t ∈ A.reached w ↔ Path A A.start w t := by
  rw [reached, mem_foldl_step settled_initial]
  constructor
  · rintro ⟨s, hs, path⟩
    exact (mem_initial.mp hs).append path
  · intro path
    exact ⟨A.start, mem_initial.mpr (.nil A.start), path⟩

theorem not_mem_foldl_step_of_empty {current : OrderedSet State} (empty : current.toList = [])
    (w : List Char) (t : State) : t ∉ w.foldl A.step current := by
  have none : ∀ s, s ∉ current := by
    intro s hs
    rw [← OrderedSet.mem_toList, empty] at hs
    contradiction
  have settled : A.Settled current := by
    intro s hs
    exact absurd hs (none s)
  intro ht
  obtain ⟨s, hs, _⟩ := (mem_foldl_step settled).mp ht
  exact none s hs

theorem acceptsFrom_iff {current : OrderedSet State} {w : List Char} :
    A.acceptsFrom current w = true ↔ ∃ s ∈ A.finals, s ∈ w.foldl A.step current := by
  induction w generalizing current with
  | nil =>
    simp only [acceptsFrom, List.any_eq_true, isFinal, decide_eq_true_eq, List.foldl_nil]
    constructor
    · rintro ⟨s, hs, final⟩
      exact ⟨s, final, hs⟩
    · rintro ⟨s, final, hs⟩
      exact ⟨s, hs, final⟩
  | cons c w ih =>
    simp only [acceptsFrom, List.foldl_cons]
    split
    · rename_i stopped
      have empty := List.isEmpty_iff.mp stopped
      constructor
      · intro impossible
        contradiction
      · rintro ⟨s, _, hs⟩
        exact absurd hs (not_mem_foldl_step_of_empty empty w s)
    · exact ih

theorem accepts_iff_recognizes {w : List Char} : A.accepts w = true ↔ A.Recognizes w := by
  rw [accepts, acceptsFrom_iff]
  constructor
  · rintro ⟨s, final, hs⟩
    exact ⟨s, final, mem_reached.mp hs⟩
  · rintro ⟨s, final, path⟩
    exact ⟨s, final, mem_reached.mpr path⟩

/-- The closure of the start, moved along every character, holds the states to which paths lead
    that spell the input. The run judges this last set, even if it stops before the end; so it
    accepts exactly if one of these paths leads to a final state. -/
theorem subset_run_iff_path (A : Automaton) (w : List Char) :
    (∀ q, q ∈ w.foldl A.step (A.closure [A.start]) ↔ Path A A.start w q) ∧
    A.accepts w = (w.foldl A.step (A.closure [A.start])).toList.any A.isFinal ∧
    (A.accepts w = true ↔ ∃ f ∈ A.finals, Path A A.start w f) := by
  refine ⟨fun q => mem_reached, ?_, accepts_iff_recognizes⟩
  apply Bool.eq_iff_iff.mpr
  rw [accepts, acceptsFrom_iff, List.any_eq_true]
  constructor
  · rintro ⟨s, final, hs⟩
    exact ⟨s, hs, decide_eq_true final⟩
  · rintro ⟨s, hs, final⟩
    exact ⟨s, of_decide_eq_true final, hs⟩

example : ["ε", ""].map (fun w => (((Automaton.single ⟨0⟩).addFinal ⟨1⟩).addEdge
    ⟨⟨0⟩, .symbol 'ε', ⟨1⟩⟩).accepts w.toList) = [true, false] := by decide +kernel

end Thompson.Automaton

/-!
Where a run stops. It goes through the set after each prefix of its input, and stops behind the
first prefix after which this set is empty, with the rest of the input not read. Otherwise it
judges the last set.
-/
namespace Thompson

/-- The property holds of the list and of no shorter prefix of it. -/
def Earliest {α : Type} (P : List α → Prop) (u : List α) : Prop :=
  P u ∧ ∀ x, x <+: u → P x → x = u

section Earliest

variable {α : Type} {P : List α → Prop} {u w rest : List α} {c : α}

theorem earliest_iff_of_nil (atOnce : P []) : Earliest P u ↔ u = [] := by
  constructor
  · intro ⟨_, first⟩
    exact (first [] List.nil_prefix atOnce).symm
  · rintro rfl
    exact ⟨atOnce, fun x inside _ => List.prefix_nil.mp inside⟩

theorem earliest_cons_iff (later : ¬P []) :
    Earliest P (c :: u) ↔ Earliest (fun x => P (c :: x)) u := by
  constructor
  · intro ⟨holds, first⟩
    refine ⟨holds, fun x inside earlier => ?_⟩
    exact List.tail_eq_of_cons_eq (first (c :: x) ((List.prefix_cons_inj c).mpr inside) earlier)
  · intro ⟨holds, first⟩
    refine ⟨holds, fun x inside earlier => ?_⟩
    rcases List.prefix_cons_iff.mp inside with rfl | ⟨y, rfl, tail⟩
    · exact absurd earlier later
    · rw [first y tail earlier]

theorem exists_earliest_cons_iff (later : ¬P []) :
    (∃ u, c :: w = u ++ rest ∧ Earliest P u) ↔
      ∃ u, w = u ++ rest ∧ Earliest (fun x => P (c :: x)) u := by
  constructor
  · rintro ⟨u, split, first⟩
    cases u with
    | nil => exact absurd first.1 later
    | cons d u =>
      obtain ⟨rfl, tail⟩ := List.cons.inj split
      exact ⟨u, tail, (earliest_cons_iff later).mp first⟩
  · rintro ⟨u, rfl, first⟩
    exact ⟨c :: u, rfl, (earliest_cons_iff later).mpr first⟩

end Earliest

namespace Automaton

/-- Where a run ends: at an empty set, with the rest of the input not read, or behind the last
    character. -/
inductive Ending where
  | stopped (rest : List Char)
  | judged (last : OrderedSet State)
  deriving DecidableEq

variable {A : Automaton} {current : OrderedSet State} {w rest : List Char}

/-- The way that `acceptsFrom` goes. -/
def endingFrom (A : Automaton) (current : OrderedSet State) : List Char → Ending
  | [] => .judged current
  | c :: cs =>
    let next := A.step current c
    if next.toList.isEmpty then .stopped cs else A.endingFrom next cs

def ending (A : Automaton) (input : List Char) : Ending := A.endingFrom A.initial input

def verdict (A : Automaton) : Ending → Bool
  | .stopped _ => false
  | .judged last => last.toList.any A.isFinal

theorem acceptsFrom_eq_verdict (A : Automaton) (current : OrderedSet State) (w : List Char) :
    A.acceptsFrom current w = A.verdict (A.endingFrom current w) := by
  induction w generalizing current with
  | nil => rfl
  | cons c w ih =>
    simp only [acceptsFrom, endingFrom]
    split
    · rfl
    · exact ih (A.step current c)

def Exhausted (A : Automaton) (current : OrderedSet State) (x : List Char) : Prop :=
  (x.foldl A.step current).toList = []

theorem endingFrom_eq_stopped_iff (alive : ¬A.Exhausted current []) :
    A.endingFrom current w = .stopped rest ↔
      ∃ u, w = u ++ rest ∧ Earliest (A.Exhausted current) u := by
  induction w generalizing current with
  | nil =>
    constructor
    · intro stopped
      contradiction
    · rintro ⟨u, split, exhausted, _⟩
      obtain ⟨rfl, _⟩ := List.append_eq_nil_iff.mp split.symm
      exact absurd exhausted alive
  | cons c w ih =>
    -- Here a state is left, so the first empty set is looked for behind the next character.
    have behind : (∃ u, c :: w = u ++ rest ∧ Earliest (A.Exhausted current) u) ↔
        ∃ u, w = u ++ rest ∧ Earliest (A.Exhausted (A.step current c)) u :=
      exists_earliest_cons_iff alive
    rw [behind, endingFrom]
    by_cases empty : A.Exhausted (A.step current c) []
    · have stops : (A.step current c).toList.isEmpty = true := List.isEmpty_iff.mpr empty
      simp only [stops, if_true, earliest_iff_of_nil empty, Ending.stopped.injEq]
      constructor
      · rintro rfl
        exact ⟨[], rfl, rfl⟩
      · rintro ⟨u, rfl, rfl⟩
        rfl
    · have goesOn : ¬(A.step current c).toList.isEmpty = true := fun none =>
        empty (List.isEmpty_iff.mp none)
      rw [if_neg goesOn]
      exact ih empty

theorem start_mem_initial (A : Automaton) : A.start ∈ A.initial := mem_initial.mpr (.nil A.start)

theorem ending_eq_stopped_iff :
    A.ending w = .stopped rest ↔ ∃ u, w = u ++ rest ∧ Earliest (A.Exhausted A.initial) u :=
  endingFrom_eq_stopped_iff (List.ne_nil_of_mem A.start_mem_initial)

theorem exhausted_iff : A.Exhausted A.initial w ↔ ¬∃ q, q ∈ A.reached w := by
  rw [not_exists]
  exact List.eq_nil_iff_forall_not_mem

theorem exists_reached_of_accepts {v : List Char} (accepted : A.accepts (w ++ v) = true) :
    ∃ q, q ∈ A.reached w := by
  obtain ⟨f, _, path⟩ := accepts_iff_recognizes.mp accepted
  apply Classical.byContradiction
  intro none
  have there : f ∈ A.reached (w ++ v) := mem_reached.mpr path
  rw [reached, List.foldl_append] at there
  exact not_mem_foldl_step_of_empty (exhausted_iff.mpr none) v f there

end Automaton

end Thompson
