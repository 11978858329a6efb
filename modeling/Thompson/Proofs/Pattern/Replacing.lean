import Thompson.Proofs.Pattern.Reading

/-!
Parts of a text replaced. Where the reader goes depends on the values that it has; offsets are
only reported. So if two texts lead from every place to the same values, or both stop the
reader there, one can stand for the other in every text. What is before and behind it need not
be complete: it may close groups that it did not open, and leave some open.
-/
namespace Thompson.Reader

variable {σ α β : Type} {K : Construction σ α β} {limit : Option Nat}

section Offsets

variable (K)

theorem settle_offset (m n : Nat) (s : σ) (focus : Focus α) :
    (settle K m s focus).2 = (settle K n s focus).2 := by
  cases focus with
  | opened => rfl
  | term here => rfl
  | factor here value => rfl

theorem unite_offset (m n : Nat) (s : σ) (done : List α) (value : α) :
    (unite K m s done value).2 = (unite K n s done value).2 := by
  induction done generalizing s value with
  | nil => rfl
  | cons branch done ih => exact ih _ _

theorem close_offset (m n : Nat) (s : σ) (here : Branches α) :
    (close K m s here).2 = (close K n s here).2 :=
  unite_offset K m n s here.done (K.stamp here.term)

end Offsets

structure SameValues (cfg other : Config σ α) : Prop where
  supply : cfg.supply = other.supply
  focus : cfg.focus = other.focus
  outers : cfg.groups.map Group.outer = other.groups.map Group.outer

inductive SameCourse :
    Except PatternError (Config σ α) → Except PatternError (Config σ α) → Prop where
  | leads {cfg other : Config σ α} (same : SameValues cfg other) : SameCourse (.ok cfg) (.ok other)
  | stops (e d : PatternError) : SameCourse (.error e) (.error d)

theorem SameValues.refl (cfg : Config σ α) : SameValues cfg cfg := ⟨rfl, rfl, rfl⟩

theorem SameValues.trans {cfg other third : Config σ α} (first : SameValues cfg other)
    (second : SameValues other third) : SameValues cfg third where
  supply := first.supply.trans second.supply
  focus := first.focus.trans second.focus
  outers := first.outers.trans second.outers

theorem SameCourse.refl (course : Except PatternError (Config σ α)) : SameCourse course course := by
  cases course with
  | error e => exact .stops e e
  | ok cfg => exact .leads (.refl cfg)

theorem SameCourse.trans {x y z : Except PatternError (Config σ α)} (first : SameCourse x y)
    (second : SameCourse y z) : SameCourse x z := by
  cases first with
  | leads same =>
    cases second with
    | leads next => exact .leads (same.trans next)
  | stops e d =>
    cases second with
    | stops d c => exact .stops e c

theorem SameCourse.ends {x y : Except PatternError (Config σ α)} (course : SameCourse x y) :
    (∃ cfg other, x = .ok cfg ∧ y = .ok other ∧ SameValues cfg other) ∨
      ∃ e d, x = .error e ∧ y = .error d := by
  cases course with
  | leads same => exact Or.inl ⟨_, _, rfl, rfl, same⟩
  | stops e d => exact Or.inr ⟨e, d, rfl, rfl⟩

namespace SameValues

variable {cfg other : Config σ α}

theorem settled_eq (same : SameValues cfg other) : settled K cfg = settled K other := by
  unfold settled
  rw [same.supply, same.focus]
  exact settle_offset K cfg.offset other.offset other.supply other.focus

theorem closed_eq (same : SameValues cfg other) : closed K cfg = closed K other := by
  unfold closed
  rw [same.settled_eq (K := K)]
  exact close_offset K _ _ _ _

theorem length_groups (same : SameValues cfg other) : cfg.groups.length = other.groups.length := by
  have count := congrArg List.length same.outers
  rwa [List.length_map, List.length_map] at count

theorem groups_eq_nil (same : SameValues cfg other) (none : cfg.groups = []) :
    other.groups = [] := by
  have count := same.length_groups
  rw [none] at count
  exact List.eq_nil_of_length_eq_zero count.symm

theorem groups_eq_cons (same : SameValues cfg other) {group : Group α} {outer : List (Group α)}
    (one : cfg.groups = group :: outer) :
    ∃ group' outer', other.groups = group' :: outer' ∧ group'.outer = group.outer ∧
      outer.map Group.outer = outer'.map Group.outer := by
  have outers := same.outers
  rw [one, List.map_cons] at outers
  obtain ⟨group', outer', split, around, rest⟩ := List.map_eq_cons_iff.mp outers.symm
  exact ⟨group', outer', split, around, rest.symm⟩

theorem step (same : SameValues cfg other) (K : Construction σ α β) (limit : Option Nat)
    (c : Char) :
    SameCourse (Reader.step K limit cfg c).2 (Reader.step K limit other c).2 := by
  have settles : settled K cfg = settled K other := same.settled_eq
  have level := same.length_groups
  have move := step_move K limit cfg c
  generalize (Reader.step K limit cfg c).2 = course at move ⊢
  cases move with
  | @star here value focus =>
    obtain ⟨offset, s, groups, _⟩ := other
    obtain ⟨supply, found, outers⟩ := same
    rw [focus] at found
    cases found
    rw [step_star, supply]
    exact .leads ⟨rfl, rfl, outers⟩
  | bar =>
    rw [step_bar, settles]
    exact .leads ⟨rfl, rfl, same.outers⟩
  | close groups =>
    obtain ⟨group', outer', split, around, rest⟩ := same.groups_eq_cons groups
    rw [step_close K limit split, same.closed_eq, around]
    exact .leads ⟨rfl, rfl, rest⟩
  | opening shallow =>
    rw [level] at shallow
    rw [step_open K shallow, settles]
    refine .leads ⟨rfl, rfl, ?_⟩
    rw [List.map_cons, List.map_cons, same.outers]
  | letter letter =>
    rw [step_literal letter, settles]
    exact .leads ⟨rfl, rfl, same.outers⟩
  | stray groups =>
    rw [step_close_of_nil (same.groups_eq_nil groups)]
    exact .stops _ _
  | tooDeep limited deep =>
    cases limited
    rw [level] at deep
    rw [step_open_tooDeep deep]
    exact .stops _ _
  | misplaced notBar notClose notOpen noLetter noStar =>
    rw [same.focus] at noStar
    rw [step_other notBar notClose notOpen noLetter noStar]
    exact .stops _ _

theorem after (same : SameValues cfg other) (text : List Char) :
    SameCourse (Reader.after K limit cfg text) (Reader.after K limit other text) := by
  induction text generalizing cfg other with
  | nil => exact .leads same
  | cons c text ih =>
    rcases (same.step K limit c).ends with ⟨_, _, first, second, next⟩ | ⟨e, d, first, second⟩
    · rw [after_cons_of_ok first, after_cons_of_ok second]
      exact ih next
    · rw [after_cons_of_error first, after_cons_of_error second]
      exact .stops e d

theorem finish (same : SameValues cfg other) :
    (Reader.finish K cfg).outcome.toOption = (Reader.finish K other).outcome.toOption := by
  by_cases focus : cfg.focus = .opened
  · rw [finish_of_opened focus, finish_of_opened (same.focus.symm.trans focus)]
    rfl
  · have focus' : other.focus ≠ .opened := by rwa [← same.focus]
    cases groups : cfg.groups with
    | nil =>
      rw [finish_of_nil focus groups, finish_of_nil focus' (same.groups_eq_nil groups),
        same.closed_eq]
    | cons group outer =>
      obtain ⟨_, _, split, _⟩ := same.groups_eq_cons groups
      rw [finish_of_cons focus groups, finish_of_cons focus' split]
      rfl

end SameValues

/-- From every place the two texts lead to the same values, or both stop the reader. -/
def Interchangeable (K : Construction σ α β) (limit : Option Nat) (p q : List Char) : Prop :=
  ∀ cfg, SameCourse (after K limit cfg p) (after K limit cfg q)

namespace Interchangeable

variable {p q r : List Char}

theorem refl (p : List Char) : Interchangeable K limit p p := fun _ => .refl _

theorem trans (first : Interchangeable K limit p q) (second : Interchangeable K limit q r) :
    Interchangeable K limit p r :=
  fun cfg => (first cfg).trans (second cfg)

theorem append_left (h : Interchangeable K limit p q) (u : List Char) :
    Interchangeable K limit (u ++ p) (u ++ q) := by
  intro cfg
  cases leads : after K limit cfg u with
  | error e =>
    rw [after_append_of_error leads, after_append_of_error leads]
    exact .stops e e
  | ok next =>
    rw [after_append_of_ok leads, after_append_of_ok leads]
    exact h next

theorem append_right (h : Interchangeable K limit p q) (v : List Char) :
    Interchangeable K limit (p ++ v) (q ++ v) := by
  intro cfg
  rcases (h cfg).ends with ⟨_, _, first, second, same⟩ | ⟨e, d, first, second⟩
  · rw [after_append_of_ok first, after_append_of_ok second]
    exact same.after v
  · rw [after_append_of_error first, after_append_of_error second]
    exact .stops e d

theorem flatMap {f : Char → List Char} (each : ∀ c, Interchangeable K limit [c] (f c))
    (text : List Char) : Interchangeable K limit text (text.flatMap f) := by
  induction text with
  | nil => exact .refl []
  | cons c text ih =>
    have one : Interchangeable K limit ([c] ++ text) (f c ++ text) := (each c).append_right text
    exact one.trans (ih.append_left (f c))

theorem outcome (h : Interchangeable K limit p q) (s : σ) :
    (read K limit s p).outcome.toOption = (read K limit s q).outcome.toOption := by
  rcases (h (origin K s)).ends with ⟨_, _, first, second, same⟩ | ⟨e, d, first, second⟩
  · rw [outcome_of_ok first, outcome_of_ok second]
    exact same.finish
  · rw [outcome_of_error first, outcome_of_error second]
    rfl

theorem of_factors {f g : Derivation .factor} (same : ∀ s, f.build K s = g.build K s) :
    Interchangeable K none f.text g.text := by
  intro cfg
  have first := reads K none f cfg (.unlimited _)
  have second := reads K none g cfg (.unlimited _)
  rw [first, second, same]
  exact .leads ⟨rfl, rfl, rfl⟩

end Interchangeable

end Thompson.Reader
