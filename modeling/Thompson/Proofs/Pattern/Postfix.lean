import Mathlib.Data.List.Forall2
import Thompson.Pattern.Compile
import Thompson.Pattern.Construction
import Thompson.Proofs.Pattern.Step

/-!
The log of a reading is a program. While a text is read, a stack can follow the log: it holds
the values that the reader has, the newest first, and every operation that the log tells of
finds its operands on top. The stamp on a branch is no operation; so the stack holds values
without it, and these are alike in all that an operation looks at.
-/
namespace Thompson

variable {σ α β : Type}

def Event.built? : Event β → Option (Operation × β)
  | .build operation result => some (operation, result)
  | _ => none

/-- Operations cannot tell alike values apart, and a stamp leaves a value alike. -/
structure Construction.Alike (K : Construction σ α β) (alike : α → α → Prop) : Prop where
  refl : ∀ x, alike x x
  stamp : ∀ {x y}, alike x y → alike (K.stamp x) y
  concatenate : ∀ {x y x' y'}, alike x x' → alike y y' →
    alike (K.concatenate x y) (K.concatenate x' y')
  union : ∀ {x y x' y'} s, alike x x' → alike y y' →
    alike (K.union x y s).1 (K.union x' y' s).1 ∧ (K.union x y s).2 = (K.union x' y' s).2
  repetition : ∀ {x x'} s, alike x x' →
    alike (K.repetition x s).1 (K.repetition x' s).1 ∧
      (K.repetition x s).2 = (K.repetition x' s).2
  describe : ∀ {x y}, alike x y → K.describe x = K.describe y

structure Stack.Holds (alike : α → α → Prop) (stack : Stack σ α) (values : List α) (s : σ) :
    Prop where
  values : List.Forall₂ alike values stack.values
  supply : stack.supply = s

namespace Reader

def built (log : List (Entry σ β)) : List (Operation × β) :=
  log.filterMap fun entry => entry.event.built?

/-- The operations in a log take a stack from these values to those, and leave what the log
    tells of them. -/
def Performs (K : Construction σ α β) (alike : α → α → Prop) (log : List (Entry σ β))
    (values : List α) (s : σ) (values' : List α) (s' : σ) : Prop :=
  ∀ stack : Stack σ α, stack.Holds alike values s →
    ∃ next, stack.run K ((built log).map Prod.fst) = some ((built log).map Prod.snd, next) ∧
      next.Holds alike values' s'

variable {K : Construction σ α β} {alike : α → α → Prop} {log more : List (Entry σ β)}
  {values values' values'' : List α} {s s' s'' : σ} {x y : α}

theorem Performs.nil : Performs K alike [] values s values s :=
  fun stack holds => ⟨stack, rfl, holds⟩

theorem Performs.append (first : Performs K alike log values s values' s')
    (second : Performs K alike more values' s' values'' s'') :
    Performs K alike (log ++ more) values s values'' s'' := by
  intro stack holds
  obtain ⟨middle, ran, between⟩ := first stack holds
  obtain ⟨next, runs, after⟩ := second middle between
  refine ⟨next, ?_, after⟩
  have parts : built (log ++ more) = built log ++ built more := List.filterMap_append
  rw [parts, List.map_append, List.map_append, Stack.run_append, ran]
  simp only [Option.bind_some, runs, Option.map_some]

theorem Performs.quiet {entry : Entry σ β} (silent : entry.event.built? = none)
    (rest : Performs K alike log values s values' s') :
    Performs K alike (entry :: log) values s values' s' := by
  have same : built (entry :: log) = built log := List.filterMap_cons_none silent
  unfold Performs
  rw [same]
  exact rest

theorem Performs.build {op : Operation} {result : β} {offset : Nat} {supply : σ}
    (applies : ∀ stack : Stack σ α, stack.Holds alike values s → ∃ value below,
      op.apply K stack = some (value, below) ∧ K.describe value = result ∧
        (below.push value).Holds alike values' s') :
    Performs K alike [⟨.build op result, offset, supply⟩] values s values' s' := by
  intro stack holds
  obtain ⟨value, below, applied, described, after⟩ := applies stack holds
  refine ⟨below.push value, ?_, after⟩
  have one : built [(⟨.build op result, offset, supply⟩ : Entry σ β)] = [(op, result)] := rfl
  rw [one]
  simp only [List.map_cons, List.map_nil, Stack.run, applied, Option.map_some, described]

section Operations

variable (same : K.Alike alike) {offset : Nat} {supply : σ}
include same

theorem performs_stamp : Performs K alike [] (x :: values) s (K.stamp x :: values) s := by
  rintro stack ⟨held, supplied⟩
  refine ⟨stack, rfl, ?_, supplied⟩
  obtain ⟨x', below, first, rest, split⟩ := List.forall₂_cons_left_iff.mp held
  rw [split]
  exact .cons (same.stamp first) rest

theorem performs_empty :
    Performs K alike [⟨.build .empty (K.describe (K.empty s).1), offset, supply⟩]
      values s ((K.empty s).1 :: values) (K.empty s).2 := by
  apply Performs.build
  rintro ⟨_, _⟩ ⟨held, rfl⟩
  exact ⟨_, _, rfl, rfl, .cons (same.refl _) held, rfl⟩

theorem performs_primitive (c : Char) :
    Performs K alike [⟨.build (.primitive c) (K.describe (K.primitive c s).1), offset, supply⟩]
      values s ((K.primitive c s).1 :: values) (K.primitive c s).2 := by
  apply Performs.build
  rintro ⟨_, _⟩ ⟨held, rfl⟩
  exact ⟨_, _, rfl, rfl, .cons (same.refl _) held, rfl⟩

theorem performs_concatenate :
    Performs K alike [⟨.build .concatenate (K.describe (K.concatenate x y)), offset, supply⟩]
      (y :: x :: values) s (K.concatenate x y :: values) s := by
  apply Performs.build
  rintro ⟨_, _⟩ ⟨held, rfl⟩
  obtain ⟨y', _, second, deeper, rfl⟩ := List.forall₂_cons_left_iff.mp held
  obtain ⟨x', below, first, rest, rfl⟩ := List.forall₂_cons_left_iff.mp deeper
  have value := same.concatenate first second
  exact ⟨_, _, rfl, (same.describe value).symm, .cons value rest, rfl⟩

theorem performs_union :
    Performs K alike [⟨.build .union (K.describe (K.union x y s).1), offset, supply⟩]
      (y :: x :: values) s ((K.union x y s).1 :: values) (K.union x y s).2 := by
  apply Performs.build
  rintro ⟨_, _⟩ ⟨held, rfl⟩
  obtain ⟨y', _, second, deeper, rfl⟩ := List.forall₂_cons_left_iff.mp held
  obtain ⟨x', below, first, rest, rfl⟩ := List.forall₂_cons_left_iff.mp deeper
  obtain ⟨value, names⟩ := same.union _ first second
  exact ⟨_, _, rfl, (same.describe value).symm, .cons value rest, names.symm⟩

theorem performs_repetition :
    Performs K alike [⟨.build .repetition (K.describe (K.repetition x s).1), offset, supply⟩]
      (x :: values) s ((K.repetition x s).1 :: values) (K.repetition x s).2 := by
  apply Performs.build
  rintro ⟨_, _⟩ ⟨held, rfl⟩
  obtain ⟨x', below, first, rest, rfl⟩ := List.forall₂_cons_left_iff.mp held
  obtain ⟨value, names⟩ := same.repetition _ first
  exact ⟨_, _, rfl, (same.describe value).symm, .cons value rest, names.symm⟩

end Operations

end Reader

def Branches.values (here : Branches α) : List α := here.term :: here.done

def Focus.values : Focus α → List α
  | .opened => []
  | .term here => here.values
  | .factor here value => value :: here.values

def suspended (groups : List (Group α)) : List α := groups.flatMap fun group => group.outer.values

def Config.values (cfg : Config σ α) : List α := cfg.focus.values ++ suspended cfg.groups

namespace Reader

variable {K : Construction σ α β} {alike : α → α → Prop} (same : K.Alike alike)
  {limit : Option Nat} {cfg next last : Config σ α} {s : σ} {offset : Nat}
include same

theorem performs_settle (focus : Focus α) (outer : List α) :
    Performs K alike (settle K offset s focus).1 (focus.values ++ outer) s
      ((settle K offset s focus).2.1.values ++ outer) (settle K offset s focus).2.2 := by
  cases focus with
  | opened => exact .quiet rfl (.quiet rfl (performs_empty same))
  | term here => exact .nil
  | factor here value => exact .quiet rfl (performs_concatenate same)

theorem performs_unite (done : List α) (value : α) (outer : List α) :
    Performs K alike (unite K offset s done value).1 (value :: done ++ outer) s
      ((unite K offset s done value).2.1 :: outer) (unite K offset s done value).2.2 := by
  induction done generalizing value s with
  | nil => exact .nil
  | cons branch done ih => exact (performs_union same).append (ih (K.union branch value s).1)

theorem performs_close (here : Branches α) (outer : List α) :
    Performs K alike (close K offset s here).1 (here.values ++ outer) s
      ((close K offset s here).2.1 :: outer) (close K offset s here).2.2 := by
  have joined : Performs K alike (unite K offset s here.done (K.stamp here.term)).1
      (here.values ++ outer) s ((close K offset s here).2.1 :: outer)
      (close K offset s here).2.2 :=
    (performs_stamp same).append (performs_unite same here.done (K.stamp here.term) outer)
  exact Performs.append (.quiet rfl joined) (.quiet rfl .nil)

theorem performs_bar (groups : List (Group α)) (here : Branches α) :
    Performs K alike (bar K offset s groups here).1 (here.values ++ suspended groups) s
      (bar K offset s groups here).2.values (bar K offset s groups here).2.supply :=
  (performs_stamp same).append (.quiet rfl (.quiet rfl (performs_empty same)))

theorem performs_closeGroup {groups : List (Group α)} {here : Branches α}
    (one : (closeGroup K offset s groups here).2 = .ok next) :
    Performs K alike (closeGroup K offset s groups here).1 (here.values ++ suspended groups) s
      next.values next.supply := by
  cases groups with
  | nil => contradiction
  | cons group outer =>
    cases one
    exact (performs_close same here (suspended (group :: outer))).append (.quiet rfl .nil)

omit same in
theorem performs_openGroup {groups : List (Group α)} {here : Branches α}
    (one : (@openGroup σ α β limit offset s groups here).2 = .ok next) :
    Performs K alike (openGroup limit offset s groups here).1 (here.values ++ suspended groups) s
      next.values next.supply := by
  unfold openGroup at one ⊢
  cases depth : depthError? limit groups.length offset with
  | some error =>
    rw [depth] at one
    contradiction
  | none =>
    rw [depth] at one
    cases one
    exact .nil

theorem performs_literal {c : Char} {groups : List (Group α)} {here : Branches α}
    (one : (literal K c offset s groups here).2 = .ok next) :
    Performs K alike (literal K c offset s groups here).1 (here.values ++ suspended groups) s
      next.values next.supply := by
  unfold literal at one ⊢
  by_cases letter : isSymbol c = true ∨ c = emptyMark
  · rw [if_pos letter] at one ⊢
    cases one
    exact (performs_primitive same c).append (.quiet rfl .nil)
  · rw [if_neg letter] at one
    contradiction

theorem performs_act {c : Char} {groups : List (Group α)} {here : Branches α}
    (one : (act K limit offset s groups here c).2 = .ok next) :
    Performs K alike (act K limit offset s groups here c).1 (here.values ++ suspended groups) s
      next.values next.supply := by
  unfold act at one ⊢
  split at one
  · cases one
    exact performs_bar same groups here
  · exact performs_closeGroup same one
  · by_cases opening : c = '('
    · rw [if_pos opening] at one ⊢
      exact .quiet rfl (.quiet rfl (performs_openGroup one))
    · rw [if_neg opening] at one ⊢
      exact .quiet rfl (.quiet rfl (performs_literal same one))

theorem performs_step {c : Char} (one : (step K limit cfg c).2 = .ok next) :
    Performs K alike (step K limit cfg c).1 cfg.values cfg.supply next.values next.supply := by
  unfold step at one ⊢
  split at one
  · rename_i here value focus
    cases one
    unfold Config.values
    rw [focus]
    exact performs_repetition same
  · exact (performs_settle same cfg.focus (suspended cfg.groups)).append (performs_act same one)

theorem performs_advance {text : List Char} (leads : (advance K limit cfg text).2 = .ok last) :
    Performs K alike (advance K limit cfg text).1 cfg.values cfg.supply last.values
      last.supply := by
  induction text generalizing cfg with
  | nil =>
    cases leads
    exact .nil
  | cons c text ih =>
    unfold advance at leads ⊢
    rcases stepped : step K limit cfg c with ⟨log, error | next⟩
    · rw [stepped] at leads
      contradiction
    · have first : Performs K alike (step K limit cfg c).1 cfg.values cfg.supply next.values
          next.supply := performs_step same (by rw [stepped])
      rw [stepped] at leads first
      exact first.append (ih leads)

theorem performs_finish {value : α} (success : (finish K cfg).outcome = .ok value) :
    ∃ s', Performs K alike (finish K cfg).log cfg.values cfg.supply [value] s' := by
  unfold finish at success ⊢
  split at success
  · contradiction
  · cases groups : cfg.groups with
    | nil =>
      rw [groups] at success
      cases success
      unfold Config.values
      rw [groups]
      exact ⟨_, (performs_settle same cfg.focus []).append (performs_close same _ [])⟩
    | cons group outer =>
      rw [groups] at success
      contradiction

/-- A text that is read to its end leaves its value alone on the stack. -/
theorem performs_read {text : List Char} {value : α}
    (success : (read K limit s text).outcome = .ok value) :
    ∃ s', Performs K alike (read K limit s text).log [] s [value] s' := by
  have begun : Performs K alike (start K s).1 [] s (start K s).2.values (start K s).2.supply :=
    performs_settle same .opened []
  unfold read at success ⊢
  rcases starts : start K s with ⟨log, cfg⟩
  rw [starts] at success begun
  rcases advanced : advance K limit cfg text with ⟨more, error | last⟩
  · simp only [advanced] at success
    contradiction
  · have through : Performs K alike (advance K limit cfg text).1 cfg.values cfg.supply last.values
        last.supply := performs_advance same (by rw [advanced])
    simp only [advanced] at success through ⊢
    obtain ⟨s', ended⟩ := performs_finish same success
    exact ⟨s', (begun.append through).append ended⟩

end Reader

structure Automaton.SameGraph (A B : Automaton) : Prop where
  start : A.start = B.start
  states : A.states = B.states
  finals : A.finals = B.finals
  edges : A.edges = B.edges

theorem alike_thompson : thompson.Alike Automaton.SameGraph where
  refl A := ⟨rfl, rfl, rfl, rfl⟩
  stamp same := ⟨same.start, same.states, same.finals, same.edges⟩
  concatenate := by
    rintro ⟨⟩ ⟨⟩ ⟨⟩ ⟨⟩ ⟨rfl, rfl, rfl, rfl⟩ ⟨rfl, rfl, rfl, rfl⟩
    exact ⟨rfl, rfl, rfl, rfl⟩
  union := by
    rintro ⟨⟩ ⟨⟩ ⟨⟩ ⟨⟩ s ⟨rfl, rfl, rfl, rfl⟩ ⟨rfl, rfl, rfl, rfl⟩
    exact ⟨⟨rfl, rfl, rfl, rfl⟩, rfl⟩
  repetition := by
    rintro ⟨⟩ ⟨⟩ s ⟨rfl, rfl, rfl, rfl⟩
    exact ⟨⟨rfl, rfl, rfl, rfl⟩, rfl⟩
  describe := by
    rintro ⟨⟩ ⟨⟩ ⟨rfl, rfl, rfl, rfl⟩
    rfl

/-- The operations that reading a pattern reports, each with what it tells of its value. -/
def reported (limit : Option Nat) (pattern : String) : List (Operation × Summary) :=
  (events limit pattern).filterMap Event.built?

/-- The same operations, with the values themselves told. -/
def Construction.revealed {σ α β : Type} (K : Construction σ α β) : Construction σ α α :=
  { K with describe := id }

theorem Stack.run_revealed {σ α β : Type} (K : Construction σ α β) (stack : Stack σ α)
    (ops : List Operation) : stack.run K ops =
      (stack.run K.revealed ops).map fun ran => (ran.1.map K.describe, ran.2) := by
  induction ops generalizing stack with
  | nil => rfl
  | cons op ops ih =>
    have same : op.apply K.revealed stack = op.apply K stack := by cases op <;> rfl
    rw [run, run, same]
    rcases op.apply K stack with _ | ⟨value, below⟩
    · rfl
    · simp only [ih, Option.map_map]
      rfl

/-- The operations that are reported, run on a stack with a new supply, find their operands and
    end with one value, which is the automaton of the pattern but for the alphabet. What was told
    of an operation is the start, the final states and the number of states of the value that it
    leaves on top. -/
theorem compile_operations_run (limit : Option Nat) (pattern : String) (A : Automaton)
    (success : compile limit pattern = .ok A) :
    ∃ B names, Stack.run thompson ⟨[], ⟨0⟩⟩ ((reported limit pattern).map Prod.fst) =
        some ((reported limit pattern).map Prod.snd, ⟨[B], names⟩) ∧
      (∃ made, Stack.run thompson.revealed ⟨[], ⟨0⟩⟩ ((reported limit pattern).map Prod.fst) =
          some (made, ⟨[B], names⟩) ∧
        (reported limit pattern).map Prod.snd =
          made.map fun V => ⟨V.start, V.finals.toList, V.states.size⟩) ∧
      A.start = B.start ∧ A.states = B.states ∧ A.finals = B.finals ∧ A.edges = B.edges := by
  obtain ⟨_, performs⟩ := Reader.performs_read alike_thompson success
  obtain ⟨⟨_, names⟩, ran, held, _⟩ := performs ⟨[], ⟨0⟩⟩ ⟨.nil, rfl⟩
  obtain ⟨B, _, ⟨start, states, finals, edges⟩, nothing, rfl⟩ :=
    List.forall₂_cons_left_iff.mp held
  obtain rfl := List.forall₂_nil_left_iff.mp nothing
  have whole : Stack.run thompson ⟨[], ⟨0⟩⟩ ((reported limit pattern).map Prod.fst) =
      some ((reported limit pattern).map Prod.snd, ⟨[B], names⟩) := by
    unfold reported events readPattern
    rw [List.filterMap_map]
    exact ran
  refine ⟨B, names, whole, ?_, start, states, finals, edges⟩
  rw [Stack.run_revealed, Option.map_eq_some_iff] at whole
  obtain ⟨⟨made, last⟩, revealed, same⟩ := whole
  obtain ⟨told, rfl⟩ := Prod.mk.inj same
  exact ⟨made, revealed, told.symm⟩

theorem compile_operations_run_star_of_group : ∃ A, compile (some 1) "(a|b)*e|" = .ok A ∧
    ∃ B names, Stack.run thompson ⟨[], ⟨0⟩⟩ ((reported (some 1) "(a|b)*e|").map Prod.fst) =
        some ((reported (some 1) "(a|b)*e|").map Prod.snd, ⟨[B], names⟩) ∧
      A.start = B.start ∧ A.states = B.states ∧ A.finals = B.finals ∧ A.edges = B.edges := by
  have success : ∃ A, compile (some 1) "(a|b)*e|" = .ok A := ⟨_, rfl⟩
  obtain ⟨A, success⟩ := success
  obtain ⟨B, names, ran, _, same⟩ := compile_operations_run _ _ A success
  exact ⟨A, success, B, names, ran, same⟩

example : (reported none "a|b|").map Prod.fst =
    [.empty, .primitive 'a', .concatenate, .empty, .primitive 'b', .concatenate, .empty, .union,
      .union] := by rfl

end Thompson
