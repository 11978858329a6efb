import Thompson.Pattern.Compile

/-!
Where the reader goes, apart from what it logs. A character either has no place, for one of
three reasons, or leads on in one of five ways; a text leads where its characters lead in
turn, and the end of the text gives the value or one of two errors.
-/
namespace Thompson.Reader

variable {σ α β : Type} (K : Construction σ α β) (limit : Option Nat)

/-- The alternation that the next character finds, and the supply when it does. -/
def settled (cfg : Config σ α) : Branches α × σ := (settle K cfg.offset cfg.supply cfg.focus).2

def after (cfg : Config σ α) (text : List Char) : Except PatternError (Config σ α) :=
  (advance K limit cfg text).2

def closed (cfg : Config σ α) : α × σ :=
  (close K cfg.offset (settled K cfg).2 (settled K cfg).1).2

variable {K} in
theorem closed_of_settled {cfg : Config σ α} {done : List α} {term : α} {s : σ}
    (settles : settled K cfg = (⟨done, term⟩, s)) :
    closed K cfg = (unite K cfg.offset s done (K.stamp term)).2 := by
  unfold closed
  rw [settles]
  rfl

def IsLiteral (c : Char) : Prop := isSymbol c = true ∨ c = emptyMark

theorem isLiteral_iff {c : Char} : IsLiteral c ↔ c = 'a' ∨ c = 'b' ∨ c = 'e' := by
  rw [IsLiteral, isSymbol_iff, or_assoc]
  rfl

section Places

variable {K limit} {cfg next : Config σ α} {c : Char} {e : PatternError}

theorem depthError?_eq_none {depth offset : Nat} :
    depthError? limit depth offset = none ↔ ∀ n ∈ limit, depth < n := by
  cases limit with
  | none => simp [depthError?]
  | some n => simp [depthError?]

theorem depthError?_eq_some {depth offset : Nat} :
    depthError? limit depth offset = some e ↔
      ∃ n ∈ limit, n ≤ depth ∧ e = .tooDeep n offset := by
  cases limit with
  | none => simp [depthError?]
  | some n =>
    simp only [depthError?, Option.bind_some, Option.mem_some_iff, exists_eq_left']
    split
    · rename_i deep
      simp [deep, eq_comm]
    · rename_i shallow
      simp [shallow]

theorem step_star {offset : Nat} {s : σ} {groups : List (Group α)} {here : Branches α} {value : α} :
    (step K limit ⟨offset, s, groups, .factor here value⟩ '*').2 =
      .ok ⟨offset + '*'.utf8Size, (K.repetition value s).2, groups,
        .factor here (K.repetition value s).1⟩ := rfl

theorem repeats_or_not (cfg : Config σ α) (c : Char) :
    (c = '*' ∧ ∃ here value, cfg.focus = .factor here value) ∨
      c ≠ '*' ∨ ∀ here value, cfg.focus ≠ .factor here value := by
  by_cases repeats : c = '*' ∧ ∃ here value, cfg.focus = .factor here value
  · exact Or.inl repeats
  · by_cases star : c = '*'
    · exact Or.inr (Or.inr fun here value focus => repeats ⟨star, here, value, focus⟩)
    · exact Or.inr (Or.inl star)

theorem step_eq (other : c ≠ '*' ∨ ∀ here value, cfg.focus ≠ .factor here value) :
    step K limit cfg c =
      ((settle K cfg.offset cfg.supply cfg.focus).1 ++
        (act K limit cfg.offset (settled K cfg).2 cfg.groups (settled K cfg).1 c).1,
        (act K limit cfg.offset (settled K cfg).2 cfg.groups (settled K cfg).1 c).2) := by
  unfold step
  split
  · rename_i here value focus
    rcases other with noStar | noFactor
    · contradiction
    · exact absurd focus (noFactor here value)
  · rfl

theorem step_eq_act (other : c ≠ '*' ∨ ∀ here value, cfg.focus ≠ .factor here value) :
    (step K limit cfg c).2 =
      (act K limit cfg.offset (settled K cfg).2 cfg.groups (settled K cfg).1 c).2 := by
  rw [step_eq other]

variable (K limit cfg) in
theorem step_bar : (step K limit cfg '|').2 =
    .ok ⟨cfg.offset + '|'.utf8Size, (K.empty (settled K cfg).2).2, cfg.groups,
      .term ⟨K.stamp (settled K cfg).1.term :: (settled K cfg).1.done,
        (K.empty (settled K cfg).2).1⟩⟩ := by
  rw [step_eq_act (Or.inl (by decide))]
  rfl

theorem step_close_of_nil (none : cfg.groups = []) :
    (step K limit cfg ')').2 = .error (.unexpected .endOfInput (some ')') cfg.offset) := by
  rw [step_eq_act (Or.inl (by decide)), none]
  rfl

variable (K limit) in
theorem step_close {group : Group α} {outer : List (Group α)} (one : cfg.groups = group :: outer) :
    (step K limit cfg ')').2 = .ok ⟨cfg.offset + ')'.utf8Size, (closed K cfg).2, outer,
      .factor group.outer (closed K cfg).1⟩ := by
  rw [step_eq_act (Or.inl (by decide)), one]
  rfl

theorem act_open {offset : Nat} {s : σ} {groups : List (Group α)} {here : Branches α} :
    (act K limit offset s groups here '(').2 =
      (@openGroup σ α β limit offset s groups here).2 := rfl

variable (K) in
theorem step_open (shallow : ∀ n ∈ limit, cfg.groups.length < n) :
    (step K limit cfg '(').2 = .ok ⟨cfg.offset + '('.utf8Size, (settled K cfg).2,
      ⟨cfg.offset, (settled K cfg).1⟩ :: cfg.groups, .opened⟩ := by
  rw [step_eq_act (Or.inl (by decide)), act_open, openGroup, depthError?_eq_none.mpr shallow]

theorem step_open_tooDeep {n : Nat} (deep : n ≤ cfg.groups.length) :
    (step K (some n) cfg '(').2 = .error (.tooDeep n cfg.offset) := by
  have error : depthError? (some n) cfg.groups.length cfg.offset = some (.tooDeep n cfg.offset) :=
    depthError?_eq_some.mpr ⟨n, rfl, deep, rfl⟩
  rw [step_eq_act (Or.inl (by decide)), act_open, openGroup, error]

theorem IsLiteral.not_meta (literal : IsLiteral c) :
    c ≠ '|' ∧ c ≠ ')' ∧ c ≠ '(' ∧ c ≠ '*' := by
  rcases isLiteral_iff.mp literal with rfl | rfl | rfl <;> decide

theorem act_of_ordinary {offset : Nat} {s : σ} {groups : List (Group α)} {here : Branches α}
    (notBar : c ≠ '|') (notClose : c ≠ ')') (notOpen : c ≠ '(') :
    (act K limit offset s groups here c).2 = (literal K c offset s groups here).2 := by
  unfold act
  split
  · contradiction
  · contradiction
  · rw [if_neg notOpen]

theorem step_literal (letter : IsLiteral c) :
    (step K limit cfg c).2 = .ok ⟨cfg.offset + c.utf8Size, (K.primitive c (settled K cfg).2).2,
      cfg.groups, .factor (settled K cfg).1 (K.primitive c (settled K cfg).2).1⟩ := by
  obtain ⟨notBar, notClose, notOpen, notStar⟩ := letter.not_meta
  rw [step_eq_act (Or.inl notStar), act_of_ordinary notBar notClose notOpen]
  unfold IsLiteral at letter
  unfold literal
  rw [if_pos letter]

theorem step_other (notBar : c ≠ '|') (notClose : c ≠ ')') (notOpen : c ≠ '(')
    (noLetter : ¬IsLiteral c)
    (noStar : c ≠ '*' ∨ ∀ here value, cfg.focus ≠ .factor here value) :
    (step K limit cfg c).2 = .error (.unexpected .symbol (some c) cfg.offset) := by
  rw [step_eq_act noStar, act_of_ordinary notBar notClose notOpen]
  unfold IsLiteral at noLetter
  unfold literal
  rw [if_neg noLetter]

/-- What a character can do: five ways to lead on, and three reasons to stop. -/
inductive Move (K : Construction σ α β) (limit : Option Nat) (cfg : Config σ α) :
    Char → Except PatternError (Config σ α) → Prop where
  | star {here : Branches α} {value : α} (focus : cfg.focus = .factor here value) :
      Move K limit cfg '*' (.ok ⟨cfg.offset + '*'.utf8Size, (K.repetition value cfg.supply).2,
        cfg.groups, .factor here (K.repetition value cfg.supply).1⟩)
  | bar : Move K limit cfg '|' (.ok ⟨cfg.offset + '|'.utf8Size, (K.empty (settled K cfg).2).2,
      cfg.groups, .term ⟨K.stamp (settled K cfg).1.term :: (settled K cfg).1.done,
        (K.empty (settled K cfg).2).1⟩⟩)
  | close {group : Group α} {outer : List (Group α)} (groups : cfg.groups = group :: outer) :
      Move K limit cfg ')' (.ok ⟨cfg.offset + ')'.utf8Size, (closed K cfg).2, outer,
        .factor group.outer (closed K cfg).1⟩)
  | opening (shallow : ∀ n ∈ limit, cfg.groups.length < n) :
      Move K limit cfg '(' (.ok ⟨cfg.offset + '('.utf8Size, (settled K cfg).2,
        ⟨cfg.offset, (settled K cfg).1⟩ :: cfg.groups, .opened⟩)
  | letter {c : Char} (letter : IsLiteral c) :
      Move K limit cfg c (.ok ⟨cfg.offset + c.utf8Size, (K.primitive c (settled K cfg).2).2,
        cfg.groups, .factor (settled K cfg).1 (K.primitive c (settled K cfg).2).1⟩)
  | stray (groups : cfg.groups = []) :
      Move K limit cfg ')' (.error (.unexpected .endOfInput (some ')') cfg.offset))
  | tooDeep {n : Nat} (limited : n ∈ limit) (deep : n ≤ cfg.groups.length) :
      Move K limit cfg '(' (.error (.tooDeep n cfg.offset))
  | misplaced {c : Char} (notBar : c ≠ '|') (notClose : c ≠ ')') (notOpen : c ≠ '(')
      (noLetter : ¬IsLiteral c)
      (noStar : c ≠ '*' ∨ ∀ here value, cfg.focus ≠ .factor here value) :
      Move K limit cfg c (.error (.unexpected .symbol (some c) cfg.offset))

variable (K limit) in
theorem step_move (cfg : Config σ α) (c : Char) : Move K limit cfg c (step K limit cfg c).2 := by
  by_cases bar : c = '|'
  · subst c
    rw [step_bar]
    exact .bar
  by_cases close : c = ')'
  · subst c
    cases groups : cfg.groups with
    | nil =>
      rw [step_close_of_nil groups]
      exact .stray groups
    | cons group outer =>
      rw [step_close K limit groups]
      exact .close groups
  by_cases opening : c = '('
  · subst c
    cases depth : depthError? limit cfg.groups.length cfg.offset with
    | none =>
      have shallow := depthError?_eq_none.mp depth
      rw [step_open K shallow]
      exact .opening shallow
    | some e =>
      obtain ⟨n, limited, deep, _⟩ := depthError?_eq_some.mp depth
      cases limited
      rw [step_open_tooDeep deep]
      exact .tooDeep rfl deep
  by_cases letter : IsLiteral c
  · rw [step_literal letter]
    exact .letter letter
  rcases repeats_or_not cfg c with ⟨rfl, here, value, focus⟩ | noStar
  · obtain ⟨offset, s, groups, _⟩ := cfg
    cases focus
    rw [step_star]
    exact .star rfl
  · rw [step_other bar close opening letter noStar]
    exact .misplaced bar close opening letter noStar

theorem stop_cases (stopped : (step K limit cfg c).2 = .error e) :
    (c = ')' ∧ e = .unexpected .endOfInput (some ')') cfg.offset) ∨
      (∃ n ∈ limit, e = .tooDeep n cfg.offset) ∨
      (c ≠ ')' ∧ e = .unexpected .symbol (some c) cfg.offset) := by
  have move := step_move K limit cfg c
  rw [stopped] at move
  generalize outcome : Except.error e = result at move
  cases move with
  | stray groups => exact Or.inl ⟨rfl, Except.error.inj outcome⟩
  | tooDeep limited deep => exact Or.inr (Or.inl ⟨_, limited, Except.error.inj outcome⟩)
  | misplaced notBar notClose notOpen noLetter noStar =>
    exact Or.inr (Or.inr ⟨notClose, Except.error.inj outcome⟩)
  | star focus => contradiction
  | bar => contradiction
  | close groups => contradiction
  | opening shallow => contradiction
  | letter letter => contradiction

theorem offset_of_stop (stopped : (step K limit cfg c).2 = .error e) : e.offset = cfg.offset := by
  rcases stop_cases stopped with ⟨_, rfl⟩ | ⟨_, _, rfl⟩ | ⟨_, rfl⟩
  · rfl
  · rfl
  · rfl

end Places

section Texts

variable {K limit} {cfg next : Config σ α} {c : Char} {e : PatternError} {u v : List Char}

theorem after_nil : after K limit cfg [] = .ok cfg := rfl

theorem after_cons_of_ok (one : (step K limit cfg c).2 = .ok next) :
    after K limit cfg (c :: u) = after K limit next u := by
  unfold after
  rw [advance]
  rcases stepped : step K limit cfg c with ⟨log, outcome⟩
  rw [stepped] at one
  subst one
  rfl

theorem after_cons_of_error (one : (step K limit cfg c).2 = .error e) :
    after K limit cfg (c :: u) = .error e := by
  unfold after
  rw [advance]
  rcases stepped : step K limit cfg c with ⟨log, outcome⟩
  rw [stepped] at one
  subst one
  rfl

theorem after_append_of_ok (first : after K limit cfg u = .ok next) :
    after K limit cfg (u ++ v) = after K limit next v := by
  unfold after at first ⊢
  rw [advance_append]
  rcases advanced : advance K limit cfg u with ⟨log, outcome⟩
  rw [advanced] at first
  subst first
  rfl

theorem after_append_of_error (first : after K limit cfg u = .error e) :
    after K limit cfg (u ++ v) = .error e := by
  unfold after at first ⊢
  rw [advance_append]
  rcases advanced : advance K limit cfg u with ⟨log, outcome⟩
  rw [advanced] at first
  subst first
  rfl

theorem after_singleton (c : Char) : after K limit cfg [c] = (step K limit cfg c).2 := by
  cases one : (step K limit cfg c).2 with
  | error e => exact after_cons_of_error one
  | ok next => exact after_cons_of_ok one

theorem after_error_split (failed : after K limit cfg u = .error e) :
    ∃ before c behind last, u = before ++ c :: behind ∧
      after K limit cfg before = .ok last ∧ (step K limit last c).2 = .error e := by
  induction u generalizing cfg with
  | nil => contradiction
  | cons c u ih =>
    cases one : (step K limit cfg c).2 with
    | error d =>
      rw [after_cons_of_error one] at failed
      cases failed
      exact ⟨[], c, u, cfg, rfl, after_nil, one⟩
    | ok next =>
      rw [after_cons_of_ok one] at failed
      obtain ⟨before, d, behind, last, rfl, reached, stopped⟩ := ih failed
      refine ⟨c :: before, d, behind, last, rfl, ?_, stopped⟩
      rw [after_cons_of_ok one, reached]

end Texts

section Whole

variable {K limit} {s : σ} {text : List Char} {last : Config σ α} {e : PatternError}

variable (K) in
def origin (s : σ) : Config σ α := (start K s).2

theorem origin_eq : origin K s = ⟨0, (K.empty s).2, [], .term ⟨[], (K.empty s).1⟩⟩ := rfl

theorem outcome_of_error (stopped : after K limit (origin K s) text = .error e) :
    (read K limit s text).outcome = .error e := by
  unfold after origin at stopped
  unfold read
  rcases begun : start K s with ⟨log, cfg⟩
  rw [begun] at stopped
  rcases advanced : advance K limit cfg text with ⟨more, outcome⟩
  simp only [advanced] at stopped ⊢
  subst stopped
  rfl

theorem outcome_of_ok (through : after K limit (origin K s) text = .ok last) :
    (read K limit s text).outcome = (finish K last).outcome := by
  unfold after origin at through
  unfold read
  rcases begun : start K s with ⟨log, cfg⟩
  rw [begun] at through
  rcases advanced : advance K limit cfg text with ⟨more, outcome⟩
  simp only [advanced] at through ⊢
  subst through
  rfl

theorem finish_of_opened (focus : last.focus = .opened) :
    (finish K last).outcome = .error (.inputEnds last.offset) := by
  unfold finish
  rw [focus]

theorem finish_of_nil (focus : last.focus ≠ .opened) (groups : last.groups = []) :
    (finish K last).outcome = .ok (closed K last).1 := by
  unfold finish
  split
  · contradiction
  · simp only [groups]
    rfl

theorem finish_of_cons {group : Group α} {outer : List (Group α)} (focus : last.focus ≠ .opened)
    (groups : last.groups = group :: outer) :
    (finish K last).outcome = .error (.unterminatedGroup group.opened last.offset) := by
  unfold finish
  split
  · contradiction
  · simp only [groups]

end Whole

end Thompson.Reader
