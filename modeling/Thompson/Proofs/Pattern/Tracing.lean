import Thompson.Proofs.Pattern.Following
import Thompson.Proofs.Pattern.Widths

/-!
What a trace shows of a reading, if it comes to its end. The lines of a verbose trace are nested as
the rules are; a short trace has the same lines without those of rules and without blanks in front.
Only an error inside a rule has a line of its own, the last one. No tracer has a say in the outcome,
but a verbose trace may stop the program where its lines become too wide; a short one never does.
-/
namespace Thompson

open Text (indented)

section Depth

variable {verbosity : Verbosity} {rules rules' : List Rule} {es : List (Event Summary)}
  {e : PatternError}

theorem Recorder.noteAll_stopped {rule : Rule} {outer : List Rule}
    (calls : Calls [] es (rule :: outer)) :
    noteAll ⟨verbosity, 0, false⟩ (es ++ (rule :: outer).map fun active => .fail active e) =
      (⟨verbosity, 0, true⟩, (noteAll ⟨verbosity, 0, false⟩ es).2 ++
        [line ⟨verbosity, outer.length, true⟩ (rule.text ++ " ✗ " ++ e.message)]) := by
  have depth : (noteAll ⟨verbosity, 0, false⟩ es).1 = ⟨verbosity, outer.length + 1, false⟩ :=
    noteAll_of_calls verbosity calls
  have others : noteAll ⟨verbosity, outer.length, true⟩ (outer.map fun active => .fail active e) =
      (⟨verbosity, 0, true⟩, []) := by
    have fails := noteAll_fails verbosity outer 0 e
    rwa [Nat.zero_add] at fails
  rw [noteAll_append, depth, List.map_cons, noteAll]
  simp only [note, after, Nat.add_sub_cancel, others]
  rfl

theorem Recorder.depth_fails (failed left : List Rule) (failureShown : Bool) :
    (noteAll ⟨verbosity, (failed ++ left).length, failureShown⟩
      (failed.map fun active => .fail active e)).1.depth = left.length := by
  induction failed generalizing failureShown with
  | nil => rfl
  | cons rule failed ih => exact ih true

theorem countP_fails (rules : List Rule) :
    (rules.map fun active => Event.fail (β := Summary) active e).countP Event.isEnd = rules.length ∧
      (rules.map fun active => Event.fail (β := Summary) active e).countP Event.isEntry = 0 := by
  induction rules with
  | nil => exact ⟨rfl, rfl⟩
  | cons rule rules ih => simp [List.countP_cons, Event.isEnd, Event.isEntry, ih]

theorem Calls.depth {before after : List (Event Summary)} (whole : Calls [] (before ++ after) rules) :
    before.countP Event.isEnd + (Recorder.noteAll ⟨verbosity, 0, false⟩ before).1.depth =
      before.countP Event.isEntry := by
  obtain ⟨between, first, _⟩ := whole.exists_between
  have counted := first.count
  have depth : (Recorder.noteAll ⟨verbosity, 0, false⟩ before).1 = ⟨verbosity, between.length, false⟩ :=
    Recorder.noteAll_of_calls verbosity first
  rw [depth]
  exact counted

theorem Calls.depth_fails {before after : List (Event Summary)} (calls : Calls [] es rules)
    (split : (es ++ rules.map fun active => .fail active e) = before ++ after) :
    before.countP Event.isEnd + (Recorder.noteAll ⟨verbosity, 0, false⟩ before).1.depth =
      before.countP Event.isEntry := by
  rcases List.append_eq_append_iff.mp split with ⟨fails, rfl, rest⟩ | ⟨rest, rfl, _⟩
  · obtain ⟨failed, left, rfl, rfl, _⟩ := List.map_eq_append_iff.mp rest
    have counted := calls.count
    have depth : (Recorder.noteAll ⟨verbosity, 0, false⟩ es).1 =
        ⟨verbosity, (failed ++ left).length, false⟩ := Recorder.noteAll_of_calls verbosity calls
    obtain ⟨ended, entered⟩ := countP_fails (e := e) failed
    rw [List.length_append, List.length_nil] at counted
    rw [Recorder.noteAll_append, depth, Recorder.depth_fails, List.countP_append,
      List.countP_append, ended, entered]
    omega
  · exact calls.depth

end Depth

section Whole

variable {limit : Option Nat} {pattern : String} {e : PatternError} {verbosity : Verbosity}

variable (limit pattern) in
/-- Reading a pattern ends with no rule active, or with the failure of all that are. -/
theorem events_end :
    (Calls [] (events limit pattern) [] ∧ ∀ e, compile limit pattern = .error e → e.Outside) ∨
      ∃ e rule outer es, compile limit pattern = .error e ∧ ¬e.Outside ∧
        Calls [] es (rule :: outer) ∧
        events limit pattern = es ++ (rule :: outer).map fun active => .fail active e := by
  have turns := Reader.turns_read thompson limit ⟨0⟩ pattern.toList
  cases outcome : compile limit pattern with
  | ok A =>
    unfold compile readPattern at outcome
    rw [outcome] at turns
    exact Or.inl ⟨turns, fun e failed => by contradiction⟩
  | error e =>
    have stops : Stopped [] e (events limit pattern) := by
      unfold compile readPattern at outcome
      rw [outcome] at turns
      exact turns
    generalize events limit pattern = es at stops
    cases stops with
    | outside done kind =>
      refine Or.inl ⟨done, ?_⟩
      rintro _ ⟨⟩
      exact kind
    | inside done kind => exact Or.inr ⟨e, _, _, _, rfl, kind, done, rfl⟩

theorem Recorder.depth_events (before after : List (Event Summary))
    (split : events limit pattern = before ++ after) :
    before.countP Event.isEnd + (noteAll ⟨verbosity, 0, false⟩ before).1.depth =
      before.countP Event.isEntry := by
  rcases events_end limit pattern with ⟨calls, _⟩ | ⟨e, rule, outer, es, _, _, calls, fails⟩
  · rw [split] at calls
    exact calls.depth
  · exact calls.depth_fails (fails.symm.trans split)

theorem Recorder.last_depth : (noteAll ⟨verbosity, 0, false⟩ (events limit pattern)).1.depth = 0 := by
  rcases events_end limit pattern with ⟨calls, _⟩ | ⟨e, rule, outer, es, _, _, calls, fails⟩
  · exact congrArg Recorder.depth (noteAll_of_calls verbosity calls)
  · rw [fails, noteAll_stopped calls]

end Whole

section Lines

variable {log es : List (Event Summary)}

theorem Calls.lines (calls : Calls [] log []) : NestedLines 0 (traceLines .verbose log) ∧
    (∀ line ∈ traceLines .verbose log, ¬Marked line) ∧
    ∀ line ∈ traceLines .default log, ¬Marked line := by
  have lines := OpenLines.note (.nil (.nil 0)) calls
  cases lines with
  | nil nested =>
    refine ⟨nested, nested.not_marked, ?_⟩
    rw [traceLines, noteAll_default log 0 0 false]
    exact shortened_not_marked nested.not_marked

theorem Calls.lines_of_fails {rule : Rule} {outer : List Rule} {e : PatternError}
    (calls : Calls [] es (rule :: outer))
    (fails : log = es ++ (rule :: outer).map fun active => .fail active e) :
    ∃ before briefly, OpenLines (rule :: outer) before ∧
      traceLines .verbose log =
        before ++ [indented (2 * outer.length) (rule.text ++ " ✗ " ++ e.message)] ∧
      traceLines .default log = briefly ++ [rule.text ++ " ✗ " ++ e.message] ∧
      (∀ line ∈ before, ¬Marked line) ∧ ∀ line ∈ briefly, ¬Marked line := by
  have before := OpenLines.note (.nil (.nil 0)) calls
  have last : traceLines .verbose log = (Recorder.noteAll ⟨.verbose, 0, false⟩ es).2 ++
      [indented (2 * outer.length) (rule.text ++ " ✗ " ++ e.message)] := by
    rw [traceLines, fails, Recorder.noteAll_stopped calls]
    rfl
  refine ⟨_, shortened _, before, last, ?_, before.not_marked,
    shortened_not_marked before.not_marked⟩
  obtain ⟨kind, stripped⟩ := isRuleLine_fail outer.length rule e
  have short : traceLines .default log = shortened (traceLines .verbose log) :=
    noteAll_default log 0 0 false
  rw [short, last, shortened_append, shortened_singleton, kind, stripped]
  rfl

end Lines

section Stops

variable {limit : Option Nat} {pattern : String}

theorem traceLines?_default (es : List (Event Summary)) :
    traceLines? .default es = some (traceLines .default es) := by
  rw [traceLines?, Recorder.noteAll?_default]
  rfl

theorem traceLines?_eq_none_iff :
    traceLines? .verbose (events limit pattern) = none ↔ Overflows (events limit pattern) := by
  rw [traceLines?, Option.map_eq_none_iff, Recorder.noteAll?_verbose_eq_none_iff]
  have depth (before after : List (Event Summary)) (split : events limit pattern = before ++ after) :
      (Recorder.noteAll ⟨.verbose, 0, false⟩ before).1.depth =
        before.countP Event.isEntry - before.countP Event.isEnd := by
    have counted := @Recorder.depth_events _ _ .verbose before after split
    omega
  constructor
  · rintro ⟨before, e, after, split, goesOn, wide⟩
    exact ⟨before, e, after, split, goesOn, depth before _ split ▸ wide⟩
  · rintro ⟨before, e, after, split, goesOn, wide⟩
    exact ⟨before, e, after, split, goesOn, (depth before _ split).symm ▸ wide⟩

theorem traceLines?_eq_some {verbosity : Verbosity} {es : List (Event Summary)}
    (goes : traceLines? verbosity es ≠ none) :
    traceLines? verbosity es = some (traceLines verbosity es) := by
  rw [traceLines?, Ne, Option.map_eq_none_iff] at goes
  rw [traceLines?, Recorder.noteAll?_eq_some goes]
  rfl

theorem traceLines?_of_shallow {verbosity : Verbosity}
    (shallow : verbosity = .default ∨ Shallow limit pattern) :
    traceLines? verbosity (events limit pattern) =
      some (traceLines verbosity (events limit pattern)) := by
  cases verbosity with
  | default => exact traceLines?_default _
  | verbose =>
    have fits := (shallow.resolve_left nofun).not_overflows
    exact traceLines?_eq_some fun none => fits (traceLines?_eq_none_iff.mp none)

theorem compileTraced_eq (verbosity : Verbosity) (limit : Option Nat) (pattern : String) :
    compileTraced verbosity limit pattern =
      (traceLines? verbosity (events limit pattern)).map fun lines => (compile limit pattern, lines) := by
  rw [compileTraced, compileFor_eq, Tracer.tellAll_recording, traceLines?]
  simp [events, Function.comp_def]

end Stops

/-- The trace of a pattern, as it is read with any limit. A short trace always comes to its end; a
    verbose one does unless it overflows, as it may with too many groups open, and then the program
    stops without a result. Otherwise the outcome is the same as when nobody listens, and these are
    the lines. The short lines are the verbose ones without those of entries and exits and without
    blanks in front. The depth is never cut off: at any moment it is what the entries are more than
    the ends, and at the end it is zero. Unless an error occurs inside a rule, the verbose lines are
    nested and none tells of a failure. Otherwise one line does, the last: it stands as deep as the
    rules around the innermost active one are many, and names that rule and the error; those before
    it are nested as far as rules have been left. The rules of the grammar, which call each other,
    come to the same outcome for every tracer and tell it these events. -/
theorem trace_structure (limit : Option Nat) (pattern : String) :
    let shown := traceLines .verbose (events limit pattern)
    let brief := traceLines .default (events limit pattern)
    traceLines? .default (events limit pattern) = some brief ∧
    (Overflows (events limit pattern) → traceLines? .verbose (events limit pattern) = none) ∧
    (¬Overflows (events limit pattern) → traceLines? .verbose (events limit pattern) = some shown) ∧
    (Shallow limit pattern → ¬Overflows (events limit pattern)) ∧
    (∀ verbosity, compileTraced verbosity limit pattern =
      (traceLines? verbosity (events limit pattern)).map fun lines =>
        ((compileFor .silent limit pattern ()).1, lines)) ∧
    brief = shortened shown ∧
    (∀ verbosity, (∀ before after, events limit pattern = before ++ after →
        before.countP Event.isEnd + (Recorder.noteAll ⟨verbosity, 0, false⟩ before).1.depth =
          before.countP Event.isEntry) ∧
      (Recorder.noteAll ⟨verbosity, 0, false⟩ (events limit pattern)).1.depth = 0) ∧
    ((∀ e, compile limit pattern = .error e → e.Outside) →
      NestedLines 0 shown ∧ (∀ line ∈ shown, ¬Marked line) ∧ ∀ line ∈ brief, ¬Marked line) ∧
    (∀ e, compile limit pattern = .error e → ¬e.Outside →
      ∃ rule outer before briefly, OpenLines (rule :: outer) before ∧
        shown = before ++ [indented (2 * outer.length) (rule.text ++ " ✗ " ++ e.message)] ∧
        brief = briefly ++ [rule.text ++ " ✗ " ++ e.message] ∧
        (∀ line ∈ before, ¬Marked line) ∧ ∀ line ∈ briefly, ¬Marked line) ∧
    ∀ (τ : Type) (T : Tracer τ Summary) (t : τ), compileFor T limit pattern t =
      (compile limit pattern, (events limit pattern).foldl T t) := by
  intro shown brief
  refine ⟨traceLines?_default _, traceLines?_eq_none_iff.mpr, ?_, Shallow.not_overflows, ?_, noteAll_default _ 0 0 false,
    fun verbosity => ⟨Recorder.depth_events, Recorder.last_depth⟩, ?_, ?_, ?_⟩
  · intro fits
    exact traceLines?_eq_some fun none => fits (traceLines?_eq_none_iff.mp none)
  · intro verbosity
    rw [compileTraced_eq, compileFor_eq]
  · intro whole
    rcases events_end limit pattern with ⟨calls, _⟩ | ⟨e, _, _, _, failed, kind, _⟩
    · exact calls.lines
    · exact absurd (whole e failed) kind
  · intro e failed kind
    rcases events_end limit pattern with ⟨_, whole⟩ | ⟨d, rule, outer, es, same, _, calls, fails⟩
    · exact absurd (whole e failed) kind
    · obtain rfl : e = d := Except.error.inj (failed.symm.trans same)
      exact ⟨rule, outer, calls.lines_of_fails fails⟩
  · intro τ T t
    rw [compileFor_eq, events, List.foldl_map]
    rfl

/-- So many groups inside each other are a pattern, but nothing comes of it with a verbose trace. -/
theorem trace_stops_at_deep_groups :
    (∃ A, (compileFor .silent none (emptyGroups 8192) ()).1 = .ok A) ∧
      compileTraced .verbose none (emptyGroups 8192) = none := by
  obtain ⟨⟨A, compiled⟩, overflows⟩ := emptyGroups_spec 8192
  have stopped := traceLines?_eq_none_iff.mpr (overflows (by simp [greatestWidth]))
  constructor
  · refine ⟨A, ?_⟩
    rw [compileFor_eq, compiled]
  · rw [compileTraced_eq, stopped]
    rfl

example : traceLines .verbose (events none "c") =
    ["regex @0", "  term @0", "    empty → start q0, finals [q1], 2 states", "    factor @0",
      "      base @0", "      base ✗ expected `a`, `b`, `e` or `(`, found `c`"] := by rfl

end Thompson
