import Thompson.Pattern.Compile
import Thompson.Proofs.Pattern.Step

/-!
Rules call each other and return. While a pattern is read, the rules that are active form a
stack, which the place alone determines: those of the alternation at the place, and four more for
each group around it. Every character changes it by entering rules and leaving the innermost
ones. An error leaves it as it is, and then every active rule fails, from the inside out.
-/
namespace Thompson

variable {σ α β : Type}

def Operation.Literal : Operation → Prop
  | .primitive c => Reader.IsLiteral c
  | _ => True

/-- Events without a failure, from some active rules to others, the innermost first. A rule
    that is entered becomes the innermost one, and only that one is left. -/
inductive Calls : List Rule → List (Event β) → List Rule → Prop where
  | nil (rules : List Rule) : Calls rules [] rules
  | enter {rule : Rule} {offset : Nat} {rules rules' : List Rule} {es : List (Event β)}
      (rest : Calls (rule :: rules) es rules') : Calls rules (.enter rule offset :: es) rules'
  | leave {rule : Rule} {result : β} {rules rules' : List Rule} {es : List (Event β)}
      (rest : Calls rules es rules') : Calls (rule :: rules) (.leave rule result :: es) rules'
  | build {op : Operation} {result : β} {rules rules' : List Rule} {es : List (Event β)}
      (literal : op.Literal) (rest : Calls rules es rules') :
      Calls rules (.build op result :: es) rules'

def Event.isEntry {β : Type} : Event β → Bool
  | .enter .. => true
  | _ => false

def Event.isEnd {β : Type} : Event β → Bool
  | .leave .. | .fail .. => true
  | _ => false

/-- What is left over behind a complete pattern is an error outside of all rules. -/
def PatternError.Outside : PatternError → Prop
  | .unexpected .endOfInput _ _ => True
  | _ => False

/-- How events end with an error: outside of all rules, or inside the innermost active rule,
    which fails with all others. -/
inductive Stopped (rules : List Rule) (e : PatternError) : List (Event β) → Prop where
  | outside {es : List (Event β)} (done : Calls rules es []) (kind : e.Outside) : Stopped rules e es
  | inside {rule : Rule} {outer : List Rule} {es : List (Event β)}
      (done : Calls rules es (rule :: outer)) (kind : ¬e.Outside) :
      Stopped rules e (es ++ (rule :: outer).map fun active => .fail active e)

section Events

variable {rules rules' rules'' : List Rule} {es more : List (Event β)} {e : PatternError}

theorem Calls.append (first : Calls rules es rules') (second : Calls rules' more rules'') :
    Calls rules (es ++ more) rules'' := by
  induction first with
  | nil => exact second
  | enter _ ih => exact .enter (ih second)
  | leave _ ih => exact .leave (ih second)
  | build literal _ ih => exact .build literal (ih second)

theorem Calls.exists_between (whole : Calls rules (es ++ more) rules'') :
    ∃ rules', Calls rules es rules' ∧ Calls rules' more rules'' := by
  induction es generalizing rules with
  | nil => exact ⟨rules, .nil rules, whole⟩
  | cons event es ih =>
    cases whole with
    | enter rest =>
      obtain ⟨rules', first, second⟩ := ih rest
      exact ⟨rules', .enter first, second⟩
    | leave rest =>
      obtain ⟨rules', first, second⟩ := ih rest
      exact ⟨rules', .leave first, second⟩
    | build literal rest =>
      obtain ⟨rules', first, second⟩ := ih rest
      exact ⟨rules', .build literal first, second⟩

theorem Calls.count (calls : Calls rules es rules') :
    es.countP Event.isEnd + rules'.length = es.countP Event.isEntry + rules.length := by
  induction calls with
  | nil => simp
  | enter _ ih =>
    simp only [List.countP_cons, Event.isEnd, Event.isEntry, List.length_cons] at ih ⊢
    simp
    omega
  | leave _ ih =>
    simp only [List.countP_cons, Event.isEnd, Event.isEntry, List.length_cons] at ih ⊢
    simp
    omega
  | build _ _ ih =>
    simp only [List.countP_cons, Event.isEnd, Event.isEntry] at ih ⊢
    simpa using ih

theorem Stopped.prepend (first : Calls rules es rules') (second : Stopped rules' e more) :
    Stopped rules e (es ++ more) := by
  cases second with
  | outside done kind => exact .outside (first.append done) kind
  | inside done kind =>
    rw [← List.append_assoc]
    exact .inside (first.append done) kind

end Events

def Focus.rules : Focus α → List Rule
  | .opened => []
  | .term _ => [.term, .regex]
  | .factor .. => [.factor, .term, .regex]

def rulesAround (levels : Nat) : List Rule :=
  (List.replicate levels [Rule.base, .factor, .term, .regex]).flatten

theorem rulesAround_succ (levels : Nat) :
    rulesAround (levels + 1) = .base :: .factor :: .term :: .regex :: rulesAround levels := rfl

def Config.rules (cfg : Config σ α) : List Rule := cfg.focus.rules ++ rulesAround cfg.groups.length

namespace Reader

def told (log : List (Entry σ β)) : List (Event β) := log.map Entry.event

theorem told_unwind (levels : Nat) (e : PatternError) (offset : Nat) (s : σ) :
    told (unwind (β := β) levels e offset s) =
      (rulesAround levels).map fun active => .fail active e := by
  rw [told, unwind, List.map_map]
  rfl

theorem calls_append {log more : List (Entry σ β)} {rules rules' rules'' : List Rule}
    (first : Calls rules (told log) rules') (second : Calls rules' (told more) rules'') :
    Calls rules (told (log ++ more)) rules'' := by
  rw [told, List.map_append]
  exact first.append second

theorem stopped_append {log more : List (Entry σ β)} {rules rules' : List Rule} {e : PatternError}
    (first : Calls rules (told log) rules') (second : Stopped rules' e (told more)) :
    Stopped rules e (told (log ++ more)) := by
  rw [told, List.map_append]
  exact second.prepend first

/-- What the events of a character or of the end do: they lead on, or they stop. -/
def Turns (rules : List Rule) (log : List (Entry σ β)) {γ : Type}
    (outcome : Except PatternError γ) (after : γ → List Rule) : Prop :=
  match outcome with
  | .error e => Stopped rules e (told log)
  | .ok result => Calls rules (told log) (after result)

theorem Turns.prepend {log more : List (Entry σ β)} {rules rules' : List Rule} {γ : Type}
    {outcome : Except PatternError γ} {after : γ → List Rule}
    (first : Calls rules (told log) rules') (second : Turns rules' more outcome after) :
    Turns rules (log ++ more) outcome after := by
  cases outcome with
  | error e => exact stopped_append first second
  | ok result => exact calls_append first second

theorem turns_unwind {γ : Type} {after : γ → List Rule} {levels offset : Nat} {s : σ}
    {e : PatternError} (some : levels ≠ 0) (kind : ¬e.Outside) :
    Turns (rulesAround levels) (unwind (β := β) levels e offset s) (.error e) after := by
  obtain ⟨outer, rfl⟩ := Nat.exists_eq_succ_of_ne_zero some
  have stops := Stopped.inside (β := β) (.nil (rulesAround (outer + 1))) kind
  show Stopped _ _ (told _)
  rw [told_unwind]
  exact stops

variable {K : Construction σ α β} {limit : Option Nat} {cfg next last : Config σ α} {s : σ}
  {offset : Nat} {rules : List Rule} {c : Char} {groups : List (Group α)}

theorem calls_settle (focus : Focus α) :
    Calls (focus.rules ++ rules) (told (settle K offset s focus).1) (.term :: .regex :: rules) := by
  cases focus with
  | opened => exact .enter (.enter (.build trivial (.nil _)))
  | term here => exact .nil _
  | factor here value => exact .leave (.build trivial (.nil _))

theorem calls_unite (done : List α) (value : α) :
    Calls rules (told (unite K offset s done value).1) rules := by
  induction done generalizing value s with
  | nil => exact .nil _
  | cons branch done ih => exact .build trivial (ih _)

theorem calls_close (here : Branches α) :
    Calls (.term :: .regex :: rules) (told (close K offset s here).1) rules := by
  have united : Calls (.regex :: rules)
      (told (unite K offset s here.done (K.stamp here.term)).1) (.regex :: rules) := calls_unite _ _
  exact calls_append (.leave united) (.leave (.nil _))

variable (groups) in
theorem calls_bar (here : Branches α) :
    Calls (.term :: rules) (told (bar K offset s groups here).1) (.term :: rules) :=
  .leave (.enter (.build trivial (.nil _)))

theorem turns_closeGroup (here : Branches α) :
    Turns (.term :: .regex :: rulesAround groups.length) (closeGroup K offset s groups here).1
      (closeGroup K offset s groups here).2 Config.rules := by
  cases groups with
  | nil => exact .outside (calls_close here) trivial
  | cons group outer => exact calls_append (calls_close here) (.leave (.nil _))

theorem turns_openGroup (here : Branches α) :
    Turns (rulesAround (groups.length + 1)) (openGroup (β := β) limit offset s groups here).1
      (openGroup (β := β) limit offset s groups here).2 Config.rules := by
  unfold openGroup
  cases depth : depthError? limit groups.length offset with
  | none => exact .nil _
  | some e =>
    obtain ⟨n, _, _, rfl⟩ := depthError?_eq_some.mp depth
    exact turns_unwind (Nat.succ_ne_zero _) not_false

theorem turns_literal (here : Branches α) :
    Turns (rulesAround (groups.length + 1)) (literal K c offset s groups here).1
      (literal K c offset s groups here).2 Config.rules := by
  unfold literal
  split
  · rename_i letter
    exact .build letter (.leave (.nil _))
  · exact turns_unwind (Nat.succ_ne_zero _) not_false

theorem turns_act (here : Branches α) :
    Turns (.term :: .regex :: rulesAround groups.length) (act K limit offset s groups here c).1
      (act K limit offset s groups here c).2 Config.rules := by
  have called : Calls (.term :: .regex :: rulesAround groups.length)
      (told [(⟨.enter .factor offset, offset, s⟩ : Entry σ β), ⟨.enter .base offset, offset, s⟩])
      (rulesAround (groups.length + 1)) := .enter (.enter (.nil _))
  unfold act
  split
  · exact calls_bar groups here
  · exact turns_closeGroup here
  · by_cases opening : c = '('
    · rw [if_pos opening]
      exact Turns.prepend called (turns_openGroup here)
    · rw [if_neg opening]
      exact Turns.prepend called (turns_literal here)

variable (K limit) in
theorem turns_step (cfg : Config σ α) (c : Char) :
    Turns cfg.rules (step K limit cfg c).1 (step K limit cfg c).2 Config.rules := by
  unfold step
  split
  · rename_i here value focus
    unfold Config.rules
    rw [focus]
    exact .build trivial (.nil _)
  · exact Turns.prepend (calls_settle cfg.focus) (turns_act _)

theorem rules_ne_nil_of_step (one : (step K limit cfg c).2 = .ok next) : next.rules ≠ [] := by
  have move := step_move K limit cfg c
  rw [one] at move
  generalize outcome : Except.ok next = result at move
  cases move with
  | star | bar | close | letter =>
    cases outcome
    simp [Config.rules, Focus.rules]
  | opening =>
    cases outcome
    simp [Config.rules, rulesAround_succ]
  | stray | tooDeep | misplaced => contradiction

variable (K limit) in
theorem turns_advance (text : List Char) (active : cfg.rules ≠ []) :
    Turns cfg.rules (advance K limit cfg text).1 (advance K limit cfg text).2 Config.rules ∧
      ∀ last, (advance K limit cfg text).2 = .ok last → last.rules ≠ [] := by
  induction text generalizing cfg with
  | nil =>
    refine ⟨.nil _, ?_⟩
    rintro last ⟨⟩
    exact active
  | cons c text ih =>
    have first := turns_step K limit cfg c
    unfold advance
    rcases stepped : step K limit cfg c with ⟨log, error | next⟩
    · rw [stepped] at first
      exact ⟨first, fun last same => by contradiction⟩
    · rw [stepped] at first
      -- Some rule has to stay active, or none could fail when the text ends too early.
      obtain ⟨rest, still⟩ := ih (rules_ne_nil_of_step (by rw [stepped]))
      exact ⟨Turns.prepend first rest, still⟩

theorem turns_finish (active : cfg.rules ≠ []) :
    Turns cfg.rules (finish K cfg).log (finish K cfg).outcome fun _ => [] := by
  have ends : ∀ outer, Calls (cfg.focus.rules ++ outer)
      (told ((settle K cfg.offset cfg.supply cfg.focus).1 ++
        (close K cfg.offset (settle K cfg.offset cfg.supply cfg.focus).2.2
          (settle K cfg.offset cfg.supply cfg.focus).2.1).1)) outer :=
    fun outer => calls_append (calls_settle cfg.focus) (calls_close _)
  unfold finish
  unfold Config.rules at active ⊢
  split
  · rename_i focus
    -- The text ends behind an opening parenthesis. No alternation was begun there.
    rw [focus] at active ⊢
    refine turns_unwind ?_ not_false
    intro none
    rw [none] at active
    exact active rfl
  · cases groups : cfg.groups with
    | nil => exact ends []
    | cons group outer =>
      exact Turns.prepend (ends _) (turns_unwind (Nat.succ_ne_zero outer.length) not_false)

variable (K limit) in
/-- Reading a text enters and leaves rules up to the end, or to an error. -/
theorem turns_read (s : σ) (text : List Char) :
    Turns [] (read K limit s text).log (read K limit s text).outcome fun _ => [] := by
  have begun : Calls [] (told (start K s).1) (start K s).2.rules := calls_settle .opened
  have active : (start K s).2.rules ≠ [] := List.cons_ne_nil _ _
  obtain ⟨through, still⟩ := turns_advance K limit text active
  unfold read
  rcases starts : start K s with ⟨log, cfg⟩
  rw [starts] at begun through still
  rcases advanced : advance K limit cfg text with ⟨more, error | last⟩
  · simp only [advanced] at through ⊢
    exact stopped_append begun through
  · simp only [advanced] at through still ⊢
    have ended := turns_finish (K := K) (still last rfl)
    exact Turns.prepend (calls_append begun through) ended

end Reader

end Thompson
