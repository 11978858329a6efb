import Thompson.Proofs.CommandLine.Agreement

/-!
A pattern in a file. The line breaks at the end of the file are taken off and nothing else is, so
what is loaded is the pattern as it would stand on the command line. From there on a run does not
look at where the pattern came from, except to name the place when it shows an error. A command
that takes inputs finds all of them behind the file as well, the first one where the pattern stood.
-/
namespace Thompson

def IsLineBreak (c : Char) : Prop := c = '\n' ∨ c = '\x0d'

theorem stripLineEnding_append {text breaks : String}
    (last : ∀ c ∈ text.toList.getLast?, ¬IsLineBreak c) (blank : ∀ c ∈ breaks.toList, IsLineBreak c) :
    stripLineEnding (text ++ breaks) = text := by
  have behind : ∀ c ∈ breaks.toList.reverse, decide (c = '\n' ∨ c = '\x0d') = true :=
    fun c member => decide_eq_true (blank c (List.mem_reverse.mp member))
  have kept : text.toList.reverse.dropWhile (fun c => c = '\n' ∨ c = '\x0d') =
      text.toList.reverse := by
    rw [List.getLast?_eq_head?_reverse] at last
    cases row : text.toList.reverse with
    | nil => rfl
    | cons c rest =>
      have plain : ¬IsLineBreak c := last c (by rw [row]; rfl)
      exact List.dropWhile_cons_of_neg (mt of_decide_eq_true plain)
  rw [stripLineEnding, String.toList_append, List.reverse_append,
    List.dropWhile_append_of_pos behind, kept, List.reverse_reverse, String.ofList_toList]

theorem decodeText_toUTF8 (text : String) : decodeText text.toUTF8 = .ok text := by
  have decoded : String.fromUTF8? text.toUTF8 = some text := dif_pos text.isValidUTF8
  rw [decodeText, decoded]

/-- The bytes behind the name of a pattern file. One dash stands for the standard input. -/
def Surroundings.bytes (w : Surroundings) (path : String) : Except ReadFailure ByteArray :=
  if path = "-" then .ok w.stdin else w.file path

def shownPath (path : String) : String := if path = "-" then "<stdin>" else path

theorem load_of_file {r : Request} {w : Surroundings} {path content : String}
    (file : r.file = some path) (bytes : w.bytes path = .ok content.toUTF8) :
    r.load w = .ok ⟨stripLineEnding content, some (shownPath path)⟩ := by
  unfold Surroundings.bytes at bytes
  unfold Request.load shownPath
  rw [file]
  by_cases dash : path = "-"
  · subst dash
    rw [if_pos rfl, Except.ok.injEq] at bytes
    simp only [bytes, decodeText_toUTF8, if_pos]
  · rw [if_neg dash] at bytes
    have decoded : (w.file path >>= decodeText) = .ok content := by
      rw [bytes]
      exact decodeText_toUTF8 content
    split
    · rename_i same
      exact absurd (Option.some.inj same) dash
    · rename_i same
      cases same
      simp only [decoded, if_neg dash]
    · rename_i none _
      contradiction
    · rename_i none _
      contradiction

/-- Two runs on one text, which was loaded from two places. They print the same and end alike, and
    an error in the text is the same for both; each shows it with the name of its place. -/
structure Alike (w : Surroundings) (s : Settings) (p p' : LoadedPattern) (o o' : Outcome) : Prop where
  code : o.code = o'.code
  stdout : o.stdout = o'.stdout
  failed : ∀ e, compile s.limit p.source = .error e →
    o.stderr = s.diagnostic w p e ∧ o'.stderr = s.diagnostic w p' e
  compiled : ∀ A, compile s.limit p.source = .ok A → o.stderr = "" ∧ o'.stderr = ""

section Runs

variable {w : Surroundings} {limit : Option Nat} {color : Color} {task : Task}
  {file file' inline inline' path path' : Option String} {text : String}

theorem Alike.of_compile {s : Settings} {p p' : LoadedPattern} {o o' : Outcome}
    (failed : ∀ e, compile s.limit p.source = .error e →
      ∃ stdout, o = ⟨1, stdout, s.diagnostic w p e⟩ ∧ o' = ⟨1, stdout, s.diagnostic w p' e⟩)
    (compiled : ∀ A, compile s.limit p.source = .ok A → o = o' ∧ o.stderr = "") :
    Alike w s p p' o o' := by
  cases outcome : compile s.limit p.source with
  | error e =>
    obtain ⟨stdout, rfl, rfl⟩ := failed e outcome
    refine ⟨rfl, rfl, ?_, ?_⟩
    · intro d same
      obtain rfl : e = d := Except.error.inj (outcome.symm.trans same)
      exact ⟨rfl, rfl⟩
    · intro A success
      exact absurd (outcome.symm.trans success) nofun
  | ok A =>
    obtain ⟨rfl, silent⟩ := compiled A outcome
    refine ⟨rfl, rfl, ?_, ?_⟩
    · intro e failure
      exact absurd (outcome.symm.trans failure) nofun
    · intro _ _
      exact ⟨silent, silent⟩

theorem alike_of_withAutomaton {go : Automaton → Outcome} (silent : ∀ A, (go A).stderr = "") :
    Alike w ⟨file, limit, color⟩ ⟨text, path⟩ ⟨text, path'⟩
      ((Settings.request ⟨file, limit, color⟩ inline task).withAutomaton w ⟨text, path⟩ go)
      ((Settings.request ⟨file', limit, color⟩ inline' task).withAutomaton w ⟨text, path'⟩ go) := by
  apply Alike.of_compile
  · intro e failed
    exact ⟨"", withAutomaton_of_error failed, withAutomaton_of_error failed⟩
  · intro A success
    have done : (Settings.request ⟨file, limit, color⟩ inline task).withAutomaton w ⟨text, path⟩ go =
        go A := withAutomaton_of_ok success
    exact ⟨done.trans (withAutomaton_of_ok success).symm, done ▸ silent A⟩

theorem alike_of_traced (verbosity : Verbosity) :
    let o := (Settings.request ⟨file, limit, color⟩ inline task).traced w ⟨text, path⟩ verbosity
    let o' := (Settings.request ⟨file', limit, color⟩ inline' task).traced w ⟨text, path'⟩ verbosity
    Alike w ⟨file, limit, color⟩ ⟨text, path⟩ ⟨text, path'⟩ o o' ∨
      traceLines? verbosity (events limit text) = none ∧ o = .stopped w ∧ o' = .stopped w := by
  intro o o'
  cases lines : traceLines? verbosity (events limit text) with
  | none => exact Or.inr ⟨rfl, traced_of_stopped lines, traced_of_stopped lines⟩
  | some shown =>
    left
    apply Alike.of_compile
    · intro e failed
      exact ⟨_, traced_of_error lines failed, traced_of_error lines failed⟩
    · intro A success
      have done : o = _ := traced_of_ok lines success
      exact ⟨done.trans (traced_of_ok lines success).symm, by rw [done]⟩

theorem run_of_lacking {s : Settings} (lacking : task.lacksInputs = true) :
    (s.request inline task).run w = ⟨1, "", "error: at least one input is required\n"⟩ := by
  have asked : (s.request inline task).task.lacksInputs = true := lacking
  rw [Request.run, if_pos asked]
  rfl

end Runs

/-- A pattern in a file, or on the standard input, with any line breaks behind it: a run prints the
    same and ends alike as one with the pattern in place, whatever the limit, the format and the
    inputs are, and however the options are spelled. If a line of one trace is too wide, so is that
    of the other, and both stop. What is loaded is the pattern with all that is
    in it, line breaks too, so an error in it is the same. A run over inputs takes all that stands
    behind two dashes if there is a file, and all but the pattern if there is none. -/
theorem file_runs_as_inline (w : Surroundings) (text breaks path : String)
    (last : ∀ c ∈ text.toList.getLast?, ¬IsLineBreak c) (blank : ∀ c ∈ breaks.toList, IsLineBreak c)
    (bytes : w.bytes path = .ok (text ++ breaks).toUTF8) (limit : Option Nat) (color : Color)
    (inputs : List String) {there here : List String} {format : Format} {verbosity : Verbosity}
    (filed : Gives false there ⟨some path, limit, color⟩ [] format verbosity) (dashes : "--" ∉ there)
    (placed : Gives false here ⟨none, limit, color⟩ [] format verbosity) (dashes' : "--" ∉ here) :
    let s : Settings := ⟨some path, limit, color⟩
    let p : LoadedPattern := ⟨text, some (shownPath path)⟩
    let p' : LoadedPattern := ⟨text, none⟩
    s.load none w = .ok p ∧
    (∀ command ∈ ["check", "dump", "trace"], ∃ o o', runLine (command :: there) w = .ok o ∧
      runLine (command :: (here ++ ["--", text])) w = .ok o' ∧ (Alike w s p p' o o' ∨
        command = "trace" ∧ traceLines? verbosity (events limit text) = none ∧
          o = .stopped w ∧ o' = .stopped w)) ∧
    ∃ o o', runLine ("exec" :: (there ++ "--" :: inputs)) w = .ok o ∧
      runLine ("exec" :: (here ++ "--" :: text :: inputs)) w = .ok o' ∧
      o.code = o'.code ∧ o.stdout = o'.stdout ∧ (inputs = [] → o = o') ∧
      (inputs ≠ [] → Alike w s p p' o o') := by
  intro s p p'
  let s' : Settings := ⟨none, limit, color⟩
  have loaded : s.load none w = .ok p := by
    have whole := load_of_file (r := s.request none .check) rfl bytes
    rwa [stripLineEnding_append last blank] at whole
  have loaded' : s'.load (some text) w = .ok p' := rfl
  have filed' : Gives false there s (none : Option String).toList format verbosity := filed
  have runs : Gives true (there ++ "--" :: inputs) s ((none : Option String).toList ++ inputs)
      format verbosity := (filed.behind_dashes dashes none inputs).2
  obtain ⟨inPlace, _⟩ := placed.behind_dashes dashes' (some text) []
  have runs' : Gives true (here ++ "--" :: text :: inputs) s' ((some text).toList ++ inputs)
      format verbosity := (placed.behind_dashes dashes' (some text) (text :: inputs)).2
  refine ⟨loaded, ?_, ?_⟩
  · intro command member
    simp only [List.mem_cons, List.not_mem_nil, or_false] at member
    rcases member with rfl | rfl | rfl
    · refine ⟨_, _, runLine_of_request (readArguments_check filed') w,
        runLine_of_request (readArguments_check inPlace) w, Or.inl ?_⟩
      rw [run_of_loaded rfl loaded, run_of_loaded rfl loaded']
      exact alike_of_withAutomaton fun _ => rfl
    · refine ⟨_, _, runLine_of_request (readArguments_dump filed') w,
        runLine_of_request (readArguments_dump inPlace) w, Or.inl ?_⟩
      rw [run_of_loaded rfl loaded, run_of_loaded rfl loaded']
      exact alike_of_withAutomaton fun _ => rfl
    · refine ⟨_, _, runLine_of_request (readArguments_trace filed') w,
        runLine_of_request (readArguments_trace inPlace) w, ?_⟩
      rw [run_of_loaded rfl loaded, run_of_loaded rfl loaded']
      exact (alike_of_traced verbosity).imp_right fun stops => ⟨rfl, stops⟩
  · refine ⟨_, _, runLine_of_request (readArguments_exec rfl runs) w,
      runLine_of_request (readArguments_exec rfl runs') w, ?_⟩
    cases inputs with
    | nil =>
      rw [run_of_lacking rfl, run_of_lacking rfl]
      exact ⟨rfl, rfl, fun _ => rfl, fun some => absurd rfl some⟩
    | cons input inputs =>
      rw [run_of_loaded rfl loaded, run_of_loaded rfl loaded']
      have same : Alike w s p p' ((s.request none (.exec format (input :: inputs))).runOn w p)
          ((s'.request (some text) (.exec format (input :: inputs))).runOn w p') :=
        alike_of_withAutomaton fun _ => rfl
      exact ⟨same.code, same.stdout, nofun, fun _ => same⟩

/-- A line break inside the pattern is an error, the same on the standard input and in place. -/
theorem file_runs_as_inline_break_inside : ∃ (w : Surroundings) (o o' : Outcome) (e : PatternError),
    runLine ["exec", "-f-", "--max-depth", "3", "--", "ab", "--", "-x"] w = .ok o ∧
    runLine ["exec", "--max-depth=3", "--", "a\nb", "ab", "--", "-x"] w = .ok o' ∧
    o.code = o'.code ∧ o.stdout = o'.stdout ∧ compile (some 3) "a\nb" = .error e ∧
    o.stderr = e.render (some ⟨"a\nb", some "<stdin>", false⟩) ++ "\n" ∧
    o'.stderr = e.render (some ⟨"a\nb", none, false⟩) ++ "\n" := by
  let w : Surroundings :=
    { stdin := ("a\nb" ++ "\x0d\n\n").toUTF8, file := fun _ => .error .notFound }
  have filed : Gives false ["-f-", "--max-depth", "3"] ⟨some "-", some 3, .auto⟩ [] .text .default :=
    ⟨_, rfl, rfl, rfl, rfl, rfl, rfl⟩
  have placed : Gives false ["--max-depth=3"] ⟨none, some 3, .auto⟩ [] .text .default :=
    ⟨_, rfl, rfl, rfl, rfl, rfl, rfl⟩
  have last : ∀ c ∈ "a\nb".toList.getLast?, ¬IsLineBreak c := by
    rintro c ⟨⟩ (same | same)
    · exact absurd same (by decide)
    · exact absurd same (by decide)
  have blank : ∀ c ∈ "\x0d\n\n".toList, IsLineBreak c := by
    simp [IsLineBreak]
  obtain ⟨_, _, o, o', ran, ran', code, stdout, _, alike⟩ :=
    file_runs_as_inline w "a\nb" "\x0d\n\n" "-" last blank rfl (some 3) .auto ["ab", "--", "-x"]
      filed (by decide) placed (by decide)
  obtain ⟨e, failed⟩ : ∃ e, compile (some 3) "a\nb" = .error e := ⟨_, rfl⟩
  obtain ⟨shown, shown'⟩ := (alike (by decide)).failed e failed
  exact ⟨w, o, o', e, ran, ran', code, stdout, failed, shown, shown'⟩

end Thompson
