import Thompson.CommandLine.Run
import Thompson.Proofs.CommandLine.Options
import Thompson.Proofs.Pattern.Tracing

/-!
The commands agree on a pattern. Whatever words spell the options, and wherever the pattern comes
from, each command asks for its own task with the same source, limit and colours; so they load
alike. Each compiles for its own tracer, and it makes no difference which one listens, unless a
verbose trace stops. What is left to tell them apart is what they print.
-/
namespace Thompson

/-- What options say about a pattern: its file, if it is in one, how deep groups may nest, and
    when diagnostics are coloured. -/
structure Settings where
  file : Option String
  limit : Option Nat
  color : Color
  deriving DecidableEq

/-- The words give this to a command, which takes inputs or not: settings, operands, and for those
    commands that look at them a format and a verbosity. Their spelling and their order are free. -/
def Gives (takesInputs : Bool) (words : List String) (s : Settings) (operands : List String)
    (format : Format) (verbosity : Verbosity) : Prop :=
  ∃ g : Given, Given.words {} takesInputs false words = .ok g ∧
    g.pattern = operands.head? ∧ g.inputs = operands.tail ∧
    s = ⟨g.file, Given.limitOf g.limit, g.color.getD .auto⟩ ∧
    format = g.format.getD .text ∧ verbosity = if g.verbose then .verbose else .default

def runLine (line : List String) (w : Surroundings) : Except Refusal Outcome :=
  (readArguments line).map fun r => r.run w

theorem runLine_of_request {line : List String} {r : Request} (asks : readArguments line = .ok r)
    (w : Surroundings) : runLine line w = .ok (r.run w) := by
  rw [runLine, asks]
  rfl

def Settings.request (s : Settings) (inline : Option String) (task : Task) : Request :=
  ⟨task, inline, s.file, s.limit, s.color⟩

section Lines

variable {words : List String} {s : Settings} {format : Format} {verbosity : Verbosity}
  {inline : Option String}

theorem Gives.behind_dashes (alone : Gives false words s [] format verbosity) (dashes : "--" ∉ words)
    (inline : Option String) (operands : List String) :
    Gives false (words ++ "--" :: inline.toList) s inline.toList format verbosity ∧
      Gives true (words ++ "--" :: operands) s operands format verbosity := by
  obtain ⟨g, read, noPattern, noInputs, rfl, rfl, rfl⟩ := alone
  have settled := Given.settle_words read
  have none : ∀ takesInputs, g.words takesInputs true [] = .ok g := fun _ => settled
  constructor
  · cases inline with
    | none =>
      refine ⟨g, ?_, noPattern, noInputs, rfl, rfl, rfl⟩
      rw [Given.words_options dashes read noPattern, Option.toList_none, none]
    | some text =>
      refine ⟨{ g with pattern := some text }, ?_, rfl, noInputs, rfl, rfl, rfl⟩
      rw [Given.words_options dashes read noPattern]
      exact (Given.words_operands settled noPattern text []).1
  · cases operands with
    | nil =>
      refine ⟨g, ?_, noPattern, noInputs, rfl, rfl, rfl⟩
      rw [Given.words_options dashes read noPattern, none]
    | cons text inputs =>
      refine ⟨{ g with pattern := some text, inputs := g.inputs ++ inputs }, ?_, rfl, ?_, rfl, rfl, rfl⟩
      · rw [Given.words_options dashes read noPattern]
        exact (Given.words_operands settled noPattern text inputs).2
      · rw [noInputs]
        rfl

theorem Gives.request (gives : Gives false words s inline.toList format verbosity)
    (task : Format → Verbosity → Task) :
    ((Given.words {} false false words).bind fun g => .ok (g.request
      (task (g.format.getD .text) (if g.verbose then .verbose else .default)))) =
      (.ok (s.request inline (task format verbosity)) : Except Refusal Request) := by
  obtain ⟨g, read, pattern, _, rfl, rfl, rfl⟩ := gives
  rw [Option.head?_toList] at pattern
  rw [read, ← pattern]
  rfl

theorem readArguments_check (gives : Gives false words s inline.toList format verbosity) :
    readArguments ("check" :: words) = .ok (s.request inline .check) :=
  gives.request fun _ _ => .check

theorem readArguments_dump (gives : Gives false words s inline.toList format verbosity) :
    readArguments ("dump" :: words) = .ok (s.request inline (.dump format)) :=
  gives.request fun format _ => .dump format

theorem readArguments_trace (gives : Gives false words s inline.toList format verbosity) :
    readArguments ("trace" :: words) = .ok (s.request inline (.trace verbosity)) :=
  gives.request fun _ verbosity => .trace verbosity

/-- With a pattern in a file the first operand of a run is an input, otherwise the pattern. -/
theorem readArguments_exec (one : inline.isSome = s.file.isNone) {inputs : List String}
    (gives : Gives true words s (inline.toList ++ inputs) format verbosity) :
    readArguments ("exec" :: words) = .ok (s.request inline (.exec format inputs)) := by
  obtain ⟨g, read, first, others, rfl, rfl, _⟩ := gives
  have line : readArguments ("exec" :: words) =
      (Given.words {} true false words).bind fun g => .ok g.execRequest := rfl
  rw [line, read]
  show Except.ok g.execRequest = _
  cases inline with
  | none =>
    have file : g.file.isSome = true := Option.isNone_eq_false_iff.mp one.symm
    have row : inputs.head?.toList ++ inputs.tail = inputs := by cases inputs <;> rfl
    rw [Option.toList_none, List.nil_append] at first others
    rw [Given.execRequest, if_pos file, first, others, row]
    rfl
  | some text =>
    have file : ¬g.file.isSome = true := by simpa using one.symm
    rw [Given.execRequest, if_neg file, others]
    show Except.ok (Request.mk _ g.pattern _ _ _) = _
    rw [first]
    rfl

end Lines

section Runs

variable {s : Settings} {inline : Option String} {task : Task} {w : Surroundings}

/-- Where a pattern comes from has nothing to do with the task. -/
def Settings.load (s : Settings) (inline : Option String) (w : Surroundings) :
    Except LoadError LoadedPattern :=
  (s.request inline .check).load w

def Settings.diagnostic (s : Settings) (w : Surroundings) (p : LoadedPattern) (e : PatternError) :
    String :=
  e.render (some ⟨p.source, p.path, s.color.shows w.terminal⟩) ++ "\n"

theorem run_of_missing {e : LoadError} (inputs : task.lacksInputs = false)
    (missing : s.load inline w = .error e) :
    (s.request inline task).run w = ⟨1, "", "error: " ++ e.message ++ "\n"⟩ := by
  have loads : (s.request inline task).load w = .error e := missing
  have asked : ¬(s.request inline task).task.lacksInputs = true := Bool.not_eq_true _ ▸ inputs
  rw [Request.run, if_neg asked, loads]
  rfl

theorem run_of_loaded {p : LoadedPattern} (inputs : task.lacksInputs = false)
    (loaded : s.load inline w = .ok p) :
    (s.request inline task).run w = (s.request inline task).runOn w p := by
  have loads : (s.request inline task).load w = .ok p := loaded
  have asked : ¬(s.request inline task).task.lacksInputs = true := Bool.not_eq_true _ ▸ inputs
  rw [Request.run, if_neg asked, loads]

end Runs

section Compiling

variable {r : Request} {w : Surroundings} {p : LoadedPattern} {go : Automaton → Outcome}
  {verbosity : Verbosity} {lines : List String} {e : PatternError} {A : Automaton}

-- No command is defined by the outcome that another one comes to: each compiles for its own tracer,
-- and that it makes no difference which one listens is what `compileFor_eq` says.

theorem withAutomaton_of_error (failed : compile r.limit p.source = .error e) :
    r.withAutomaton w p go = ⟨1, "", r.diagnostic w p e ++ "\n"⟩ := by
  rw [Request.withAutomaton, compileFor_eq, failed]
  rfl

theorem withAutomaton_of_ok (success : compile r.limit p.source = .ok A) :
    r.withAutomaton w p go = go A := by
  rw [Request.withAutomaton, compileFor_eq, success]

theorem traced_of_stopped (stops : traceLines? verbosity (events r.limit p.source) = none) :
    r.traced w p verbosity = .stopped w := by
  rw [Request.traced, compileTraced_eq, stops]
  rfl

theorem traced_of_error (shown : traceLines? verbosity (events r.limit p.source) = some lines)
    (failed : compile r.limit p.source = .error e) :
    r.traced w p verbosity = ⟨1, traceText lines, r.diagnostic w p e ++ "\n"⟩ := by
  rw [Request.traced, compileTraced_eq, shown, failed]
  rfl

theorem traced_of_ok (shown : traceLines? verbosity (events r.limit p.source) = some lines)
    (success : compile r.limit p.source = .ok A) :
    r.traced w p verbosity = ⟨0, traceText lines ++ ("---\n" ++ A.listing true), ""⟩ := by
  rw [Request.traced, compileTraced_eq, shown, success]
  rfl

end Compiling

/-- The commands agree on a pattern, whatever words give its settings to each of them; options
    that stand alone can be given to all of them. Either none of the commands can load it, or none
    can compile it, or all do. A trace prints its lines before it fails, and before the automaton
    as a dump shows it. A short trace always has its lines, and so has a verbose one unless the
    groups nest too deep; then it stops, which the other commands do not. -/
theorem commands_agree (w : Surroundings) (s : Settings) (inline : Option String)
    (one : inline.isSome = s.file.isNone) (input : String) (inputs : List String)
    {check dump trace exec : List String} {cf df tf xf : Format} {cv dv tv xv : Verbosity}
    (checks : Gives false check s inline.toList cf cv)
    (dumps : Gives false dump s inline.toList df dv)
    (traces : Gives false trace s inline.toList tf tv)
    (runs : Gives true exec s (inline.toList ++ input :: inputs) xf xv) :
    let checked := runLine ("check" :: check) w
    let dumped := runLine ("dump" :: dump) w
    let traced := runLine ("trace" :: trace) w
    let executed := runLine ("exec" :: exec) w
    let lines := fun p : LoadedPattern => traceLines? tv (events s.limit p.source)
    (∀ p, s.load inline w = .ok p → tv = .default ∨ Shallow s.limit p.source →
      lines p = some (traceLines tv (events s.limit p.source))) ∧
    ((∃ e, s.load inline w = .error e ∧ ∀ run ∈ [checked, dumped, traced, executed],
      run = .ok ⟨1, "", "error: " ++ e.message ++ "\n"⟩) ∨
    (∃ p e, s.load inline w = .ok p ∧ compile s.limit p.source = .error e ∧
      (∀ run ∈ [checked, dumped, executed], run = .ok ⟨1, "", s.diagnostic w p e⟩) ∧
      (∀ shown, lines p = some shown →
        traced = .ok ⟨1, traceText shown, s.diagnostic w p e⟩) ∧
      (lines p = none → traced = .ok (.stopped w))) ∨
    ∃ p A, s.load inline w = .ok p ∧ compile s.limit p.source = .ok A ∧
      checked = .ok ⟨0, "", ""⟩ ∧
      (∃ out, dumped = .ok ⟨0, out, ""⟩ ∧ (df = .text → out = A.listing true)) ∧
      (∃ code out, executed = .ok ⟨code, out, ""⟩) ∧
      (∀ shown, lines p = some shown →
        traced = .ok ⟨0, traceText shown ++ ("---\n" ++ A.listing true), ""⟩) ∧
      (lines p = none → traced = .ok (.stopped w))) := by
  intro checked dumped traced executed lines
  refine ⟨fun p _ => traceLines?_of_shallow, ?_⟩
  have checkRun : checked = .ok ((s.request inline .check).run w) :=
    runLine_of_request (readArguments_check checks) w
  have dumpRun : dumped = .ok ((s.request inline (.dump df)).run w) :=
    runLine_of_request (readArguments_dump dumps) w
  have traceRun : traced = .ok ((s.request inline (.trace tv)).run w) :=
    runLine_of_request (readArguments_trace traces) w
  have execRun : executed = .ok ((s.request inline (.exec xf (input :: inputs))).run w) :=
    runLine_of_request (readArguments_exec one runs) w
  cases loaded : s.load inline w with
  | error e =>
    refine Or.inl ⟨e, rfl, ?_⟩
    rw [checkRun, dumpRun, traceRun, execRun, run_of_missing rfl loaded, run_of_missing rfl loaded,
      run_of_missing rfl loaded, run_of_missing rfl loaded]
    simp
  | ok p =>
    rw [run_of_loaded rfl loaded] at checkRun dumpRun traceRun execRun
    have stops (none : lines p = none) : traced = .ok (.stopped w) := by
      rw [traceRun]
      exact congrArg Except.ok (traced_of_stopped none)
    cases compiled : compile s.limit p.source with
    | error e =>
      refine Or.inr (Or.inl ⟨p, e, rfl, compiled, ?_, ?_, stops⟩)
      · rw [checkRun, dumpRun, execRun]
        simp only [List.forall_mem_cons]
        exact ⟨congrArg Except.ok (withAutomaton_of_error compiled),
          congrArg Except.ok (withAutomaton_of_error compiled),
          congrArg Except.ok (withAutomaton_of_error compiled), nofun⟩
      · intro shown all
        rw [traceRun]
        exact congrArg Except.ok (traced_of_error all compiled)
    | ok A =>
      refine Or.inr (Or.inr ⟨p, A, rfl, compiled, ?_, ?_, ?_, ?_, stops⟩)
      · rw [checkRun]
        exact congrArg Except.ok (withAutomaton_of_ok compiled)
      · refine ⟨A.dump df, ?_, fun text => by rw [text]; rfl⟩
        rw [dumpRun]
        exact congrArg Except.ok (withAutomaton_of_ok compiled)
      · rw [execRun]
        exact ⟨_, _, congrArg Except.ok (withAutomaton_of_ok compiled)⟩
      · intro shown all
        rw [traceRun]
        exact congrArg Except.ok (traced_of_ok all compiled)

theorem commands_agree_unclosed : ∃ (w : Surroundings) (lines message : String),
    runLine ["check", "--max-depth", "0", "(a", "--color=never"] w = .ok ⟨1, "", message⟩ ∧
    runLine ["dump", "--color", "never", "--max-depth=00", "(a", "--format", "json"] w =
      .ok ⟨1, "", message⟩ ∧
    runLine ["trace", "-v", "--max-depth=+0", "--color=never", "--", "(a"] w =
      .ok ⟨1, lines, message⟩ ∧
    runLine ["exec", "--max-depth=-0", "--color=never", "--", "(a", "", "-b"] w =
      .ok ⟨1, "", message⟩ := by
  let w : Surroundings := { stdin := .empty, file := fun _ => .error .notFound }
  let s : Settings := ⟨none, none, .never⟩
  have checks : Gives false ["--max-depth", "0", "(a", "--color=never"] s ["(a"] .text .default :=
    ⟨_, rfl, rfl, rfl, rfl, rfl, rfl⟩
  have dumps : Gives false ["--color", "never", "--max-depth=00", "(a", "--format", "json"] s ["(a"]
      .json .default := ⟨_, rfl, rfl, rfl, rfl, rfl, rfl⟩
  have verbose : Gives false ["-v", "--max-depth=+0", "--color=never"] s [] .text .verbose :=
    ⟨_, rfl, rfl, rfl, rfl, rfl, rfl⟩
  have traces := (verbose.behind_dashes (by decide) (some "(a") []).1
  have options : Gives false ["--max-depth=-0", "--color=never"] s [] .text .default :=
    ⟨_, rfl, rfl, rfl, rfl, rfl, rfl⟩
  have runs := (options.behind_dashes (by decide) none ["(a", "", "-b"]).2
  have loaded : s.load (some "(a") w = .ok ⟨"(a", none⟩ := rfl
  have failed : ∃ e, compile s.limit "(a" = .error e := ⟨_, rfl⟩
  have shallow : Verbosity.verbose = .default ∨ Shallow s.limit "(a" := Or.inr (Or.inr (by decide))
  obtain ⟨lines, whole⟩ := commands_agree w s (some "(a") rfl "" ["-b"] checks dumps traces runs
  rcases whole with ⟨e, missing, _⟩ | ⟨p, e, loads, _, others, traced, _⟩ | ⟨p, A, loads, success, _⟩
  · rw [loaded] at missing
    contradiction
  · cases loaded.symm.trans loads
    simp only [List.forall_mem_cons] at others
    exact ⟨w, _, _, others.1, others.2.1, traced _ (lines _ loaded shallow), others.2.2.1⟩
  · obtain ⟨e, failed⟩ := failed
    cases loaded.symm.trans loads
    rw [failed] at success
    contradiction

end Thompson
