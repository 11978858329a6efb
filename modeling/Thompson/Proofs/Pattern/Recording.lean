import Thompson.Proofs.Pattern.Tracing

/-!
One recorder for several patterns. Reading a pattern leaves the depth where it was, so the lines of
later patterns stand as deep as those of the first one. But a recorder does not forget that it has
shown a failure: from the first pattern that fails inside a rule on, no failure has a line of its
own, and all other lines are those of a recorder that is new.
-/
namespace Thompson

def FailsInside (limit : Option Nat) (pattern : String) : Prop :=
  ∃ e, compile limit pattern = .error e ∧ ¬e.Outside

/-- Patterns with their limits, read one after the other for the same tracer. -/
def compileInTurn {τ : Type} (T : Tracer τ Summary) (t : τ) (patterns : List (Option Nat × String)) : τ :=
  patterns.foldl (fun t (limit, pattern) => (compileFor T limit pattern t).2) t

theorem compileInTurn_cons {τ : Type} (T : Tracer τ Summary) (t : τ) (p : Option Nat × String)
    (patterns : List (Option Nat × String)) : compileInTurn T t (p :: patterns) =
      compileInTurn T (compileFor T p.1 p.2 t).2 patterns := rfl

theorem compileInTurn_concat {τ : Type} (T : Tracer τ Summary) (t : τ)
    (patterns : List (Option Nat × String)) (limit : Option Nat) (pattern : String) :
    compileInTurn T t (patterns ++ [(limit, pattern)]) =
      (compileFor T limit pattern (compileInTurn T t patterns)).2 := List.foldl_concat ..

def Recorder.unused (verbosity : Verbosity) : Recorder × List String := (⟨verbosity, 0, false⟩, [])

variable {verbosity : Verbosity} {limit : Option Nat} {pattern : String}

namespace Recorder

variable (verbosity) in
theorem note_shown (depth : Nat) (shown : Bool) {event : Event Summary}
    (fine : ∀ rule e, event ≠ .fail rule e) :
    (note ⟨verbosity, depth, shown⟩ event).2 = (note ⟨verbosity, depth, false⟩ event).2 := by
  cases event with
  | enter | leave | build => cases verbosity <;> rfl
  | fail rule e => exact absurd rfl (fine rule e)

theorem noteAll_cons_same {r r' last : Recorder} {event : Event Summary} {es : List (Event Summary)}
    (first : (r.note event).2 = (r'.note event).2)
    (rest : (r.after event).noteAll es = (last, ((r'.after event).noteAll es).2)) :
    r.noteAll (event :: es) = (last, (r'.noteAll (event :: es)).2) := by
  show (((r.after event).noteAll es).1, (r.note event).2 ++ ((r.after event).noteAll es).2) = _
  rw [first, rest]
  rfl

variable (verbosity) in
theorem noteAll_shown {rules rules' : List Rule} {es : List (Event Summary)}
    (calls : Calls rules es rules') (shown : Bool) :
    noteAll ⟨verbosity, rules.length, shown⟩ es =
      (⟨verbosity, rules'.length, shown⟩, (noteAll ⟨verbosity, rules.length, false⟩ es).2) := by
  induction calls with
  | nil => rfl
  | enter _ ih => exact noteAll_cons_same (note_shown verbosity _ shown nofun) ih
  | leave _ ih => exact noteAll_cons_same (note_shown verbosity _ shown nofun) ih
  | build _ _ ih => exact noteAll_cons_same (note_shown verbosity _ shown nofun) ih

theorem noteAll_of_not_inside (whole : ¬FailsInside limit pattern) (shown : Bool) :
    noteAll ⟨verbosity, 0, shown⟩ (events limit pattern) =
      (⟨verbosity, 0, shown⟩, traceLines verbosity (events limit pattern)) := by
  rcases events_end limit pattern with ⟨calls, _⟩ | ⟨e, _, _, _, failed, kind, _⟩
  · exact noteAll_shown verbosity calls shown
  · exact absurd ⟨e, failed, kind⟩ whole

theorem marked_line (r : Recorder) (rule : Rule) (e : PatternError) :
    Marked (r.line (rule.text ++ " ✗ " ++ e.message)) := by
  have inside : Marked (rule.text ++ " ✗ " ++ e.message) := by
    simp [Marked, failureMark]
  rw [line, Marked, Text.toList_indented]
  exact List.mem_append_right _ inside

variable (verbosity) in
/-- A failure inside a rule has the last line of a recorder that is new, and that line is all that
    is missing if one was shown before. -/
theorem noteAll_of_inside (inside : FailsInside limit pattern) :
    ∃ before line, Marked line ∧ traceLines verbosity (events limit pattern) = before ++ [line] ∧
      noteAll ⟨verbosity, 0, false⟩ (events limit pattern) =
        (⟨verbosity, 0, true⟩, before ++ [line]) ∧
      noteAll ⟨verbosity, 0, true⟩ (events limit pattern) = (⟨verbosity, 0, true⟩, before) := by
  obtain ⟨d, failed, kind⟩ := inside
  rcases events_end limit pattern with ⟨_, whole⟩ | ⟨e, rule, outer, es, _, _, calls, fails⟩
  · exact absurd (whole d failed) kind
  · have fresh := @noteAll_stopped verbosity _ e _ _ calls
    have active : noteAll ⟨verbosity, 0, true⟩ es =
        (⟨verbosity, (rule :: outer).length, true⟩, (noteAll ⟨verbosity, 0, false⟩ es).2) :=
      noteAll_shown verbosity calls true
    have others := noteAll_fails verbosity (rule :: outer) 0 e
    rw [Nat.zero_add] at others
    refine ⟨_, _, marked_line ⟨verbosity, outer.length, true⟩ rule e, ?_, fails ▸ fresh, ?_⟩
    · rw [traceLines, fails, fresh]
    · rw [fails, noteAll_append, active, others, List.append_nil]

theorem compileFor_printing (r : Recorder) (lines : List String) (limit : Option Nat)
    (pattern : String) : compileFor .printing limit pattern (r, lines) =
      (compile limit pattern, (r.noteAll (events limit pattern)).1,
        lines ++ (r.noteAll (events limit pattern)).2) := by
  rw [compileFor_eq, Tracer.tellAll_printing]
  rfl

variable (verbosity) in
theorem compileFor_remembers (shown : Bool) (lines : List String) (limit : Option Nat)
    (pattern : String) : ∃ shown' lines',
      (compileFor .printing limit pattern (⟨verbosity, 0, shown⟩, lines)).2 =
        (⟨verbosity, 0, shown'⟩, lines') ∧
      (shown' = true ↔ shown = true ∨ FailsInside limit pattern) := by
  rw [compileFor_printing]
  by_cases inside : FailsInside limit pattern
  · obtain ⟨before, line, _, _, first, later⟩ := noteAll_of_inside verbosity inside
    cases shown with
    | false => exact ⟨true, _, by rw [first], by simp [inside]⟩
    | true => exact ⟨true, _, by rw [later], by simp⟩
  · exact ⟨shown, _, by rw [noteAll_of_not_inside inside], by simp [inside]⟩

variable (verbosity) in
theorem compileInTurn_remembers (shown : Bool) (lines : List String)
    (patterns : List (Option Nat × String)) : ∃ shown' lines',
      compileInTurn .printing (⟨verbosity, 0, shown⟩, lines) patterns =
        (⟨verbosity, 0, shown'⟩, lines') ∧
      (shown' = true ↔ shown = true ∨ ∃ p ∈ patterns, FailsInside p.1 p.2) := by
  induction patterns generalizing shown lines with
  | nil => exact ⟨shown, lines, rfl, by simp⟩
  | cons p patterns ih =>
    obtain ⟨next, more, one, known⟩ := compileFor_remembers verbosity shown lines p.1 p.2
    obtain ⟨last, all, rest, told⟩ := ih next more
    refine ⟨last, all, ?_, ?_⟩
    · rw [← rest, ← one]
      rfl
    · rw [told, known, or_assoc]
      simp

theorem depth_noteAll {r r' : Recorder} (same : r.depth = r'.depth) (es : List (Event Summary)) :
    (r.noteAll es).1.depth = (r'.noteAll es).1.depth := by
  induction es generalizing r r' with
  | nil => exact same
  | cons e es ih =>
    have next : (r.after e).depth = (r'.after e).depth := by cases e <;> simp only [after, same]
    exact ih next

variable (verbosity) in
theorem noteAll?_shown_eq_none_iff (shown : Bool) (es : List (Event Summary)) :
    noteAll? ⟨verbosity, 0, shown⟩ es = none ↔ traceLines? verbosity es = none := by
  rw [traceLines?, Option.map_eq_none_iff]
  cases verbosity with
  | default =>
    rw [noteAll?_default, noteAll?_default]
    exact iff_of_false (Option.some_ne_none _) (Option.some_ne_none _)
  | verbose =>
    have depth (before : List (Event Summary)) :=
      @depth_noteAll ⟨.verbose, 0, shown⟩ ⟨.verbose, 0, false⟩ rfl before
    simp only [noteAll?_verbose_eq_none_iff, depth]

variable (verbosity) in
/-- A recorder that was used before stops where one that is new does. -/
theorem compileFor_recording (shown : Bool) (lines : List String) (limit : Option Nat)
    (pattern : String) :
    (compileFor .recording limit pattern (some (⟨verbosity, 0, shown⟩, lines))).2 =
      (compileTraced verbosity limit pattern).map fun _ =>
        (compileFor .printing limit pattern (⟨verbosity, 0, shown⟩, lines)).2 := by
  have stops := noteAll?_shown_eq_none_iff verbosity shown (events limit pattern)
  rw [compileFor_printing, compileTraced_eq, compileFor_eq, Tracer.tellAll_recording, Option.map_map]
  change Option.map _ (noteAll? _ (events limit pattern)) = _
  by_cases none : traceLines? verbosity (events limit pattern) = none
  · rw [stops.mpr none, none]
    rfl
  · rw [noteAll?_eq_some (mt stops.mp none), traceLines?_eq_some none]
    rfl

theorem compileInTurn_recording_none (patterns : List (Option Nat × String)) :
    compileInTurn .recording none patterns = none := by
  induction patterns with
  | nil => rfl
  | cons p patterns ih =>
    have gone : (compileFor .recording p.1 p.2 none).2 = none := by
      rw [compileFor_eq, Tracer.tellAll_recording_none]
    rw [compileInTurn_cons, gone, ih]

variable (verbosity) in
theorem compileInTurn_recording (shown : Bool) (lines : List String)
    (patterns : List (Option Nat × String)) :
    compileInTurn .recording (some (⟨verbosity, 0, shown⟩, lines)) patterns =
      if patterns.all fun p => (compileTraced verbosity p.1 p.2).isSome then
        some (compileInTurn .printing (⟨verbosity, 0, shown⟩, lines) patterns)
      else none := by
  induction patterns generalizing shown lines with
  | nil => rfl
  | cons p patterns ih =>
    obtain ⟨next, more, one, _⟩ := compileFor_remembers verbosity shown lines p.1 p.2
    have first := compileFor_recording verbosity shown lines p.1 p.2
    rw [compileInTurn_cons, compileInTurn_cons, first, one, List.all_cons]
    cases compileTraced verbosity p.1 p.2 with
    | none => exact compileInTurn_recording_none patterns
    | some result => exact ih next more

end Recorder

/-- A recorder that was told of other patterns before, whatever their limits were and whether they
    were read or not: the depth is zero again after each of them, and the outcome is the same as
    ever. The lines that a pattern adds are those of a recorder that is new, unless a pattern before
    it failed inside a rule and so does this one. Then the line of its failure is missing. Where a
    line is too wide the program stops, which it does at the first of the patterns for which a
    recorder that is new stops it too; otherwise these are the lines. -/
theorem later_patterns_recorded (verbosity : Verbosity) (earlier : List (Option Nat × String))
    (limit : Option Nat) (pattern : String) :
    let before := compileInTurn .printing (Recorder.unused verbosity) earlier
    let now := compileFor .printing limit pattern before
    let fresh := (compileFor .printing limit pattern (Recorder.unused verbosity)).2.2
    let known := ∃ p ∈ earlier, FailsInside p.1 p.2
    now.1 = compile limit pattern ∧ before.1.depth = 0 ∧ now.2.1.depth = 0 ∧
    compileInTurn .recording (some (Recorder.unused verbosity)) (earlier ++ [(limit, pattern)]) =
      (if (earlier ++ [(limit, pattern)]).all fun p => (compileTraced verbosity p.1 p.2).isSome then
        some now.2
      else none) ∧
    ∃ added, now.2.2 = before.2 ++ added ∧
      (added = fresh ↔ ¬(known ∧ FailsInside limit pattern)) ∧
      (known → FailsInside limit pattern → ∃ line, Marked line ∧ fresh = added ++ [line]) := by
  intro before now fresh known
  obtain ⟨shown, lines, told, shows⟩ :=
    Recorder.compileInTurn_remembers verbosity false [] earlier
  obtain ⟨shown', lines', after, _⟩ :=
    Recorder.compileFor_remembers verbosity shown lines limit pattern
  have state : before = (⟨verbosity, 0, shown⟩, lines) := told
  have outcome := Recorder.compileFor_printing ⟨verbosity, 0, shown⟩ lines limit pattern
  have alone : fresh = traceLines verbosity (events limit pattern) := by
    show (compileFor .printing limit pattern (⟨verbosity, 0, false⟩, [])).2.2 = _
    rw [Recorder.compileFor_printing]
    rfl
  have remembered : shown = true ↔ known := shows.trans (or_iff_right Bool.false_ne_true)
  rw [← state] at outcome after
  refine ⟨congrArg Prod.fst outcome, by rw [state], congrArg (·.1.depth) after, ?_, _,
    (congrArg (·.2.2) outcome).trans (by rw [state]), ?_⟩
  · have whole := Recorder.compileInTurn_recording verbosity false [] (earlier ++ [(limit, pattern)])
    rwa [compileInTurn_concat .printing] at whole
  rw [alone]
  by_cases inside : FailsInside limit pattern
  · obtain ⟨first, line, mark, all, new, used⟩ :=
      Recorder.noteAll_of_inside verbosity inside
    cases shown with
    | false =>
      have unknown : ¬known := fun some => absurd (remembered.mpr some) nofun
      rw [new, all]
      exact ⟨iff_of_true rfl fun both => unknown both.1, fun some => absurd some unknown⟩
    | true =>
      have some : known := remembered.mp rfl
      rw [used, all]
      refine ⟨iff_of_false ?_ fun none => none ⟨some, inside⟩, fun _ _ => ⟨line, mark, rfl⟩⟩
      intro same
      simpa using congrArg List.length same
  · rw [Recorder.noteAll_of_not_inside inside]
    exact ⟨iff_of_true rfl fun both => inside both.2, fun _ failed => absurd failed inside⟩

/-- The same pattern twice, for one recorder: only the first failure has a line. -/
theorem second_failure_not_recorded :
    let once := compileInTurn .printing (Recorder.unused .default) [(defaultLimit, "c")]
    let twice := compileInTurn .printing (Recorder.unused .default)
      [(defaultLimit, "c"), (defaultLimit, "c")]
    once.2 = ["empty → start q0, finals [q1], 2 states",
      "base ✗ expected `a`, `b`, `e` or `(`, found `c`"] ∧
    twice.2 = once.2 ++ ["empty → start q0, finals [q1], 2 states"] ∧ twice.2 ≠ once.2 ++ once.2 := by
  intro once twice
  have first : once = (⟨.default, 0, true⟩, ["empty → start q0, finals [q1], 2 states",
      "base ✗ expected `a`, `b`, `e` or `(`, found `c`"]) := by
    show (compileFor .printing defaultLimit "c" (⟨.default, 0, false⟩, [])).2 = _
    rw [Recorder.compileFor_printing]
    rfl
  have second : twice = (⟨.default, 0, true⟩,
      once.2 ++ ["empty → start q0, finals [q1], 2 states"]) := by
    show (compileFor .printing defaultLimit "c" once).2 = _
    rw [first, Recorder.compileFor_printing]
    rfl
  rw [second, first]
  exact ⟨rfl, rfl, by decide⟩

end Thompson
