import Thompson.Proofs.Pattern.Acceptance

/-!
Where and why a text is no pattern. Without a limit the reader stops at the end of the
longest part from the beginning that some pattern begins with. Either the next character
cannot follow there, or the text ends: behind an opening parenthesis, or inside a group.
-/
namespace Thompson

open String (utf8Len)

def Viable (text : String) : Prop := ∃ more A, compile none (text ++ more) = .ok A

namespace Reader

variable {σ α β : Type} {K : Construction σ α β} {s : σ} {text : List Char} {last : Config σ α}
  {e : PatternError}

theorem Behind.completes (h : Behind last text) : ∃ more, Derivable (text ++ more) :=
  ⟨_, h.trail.derivable_closed⟩

/-- Nothing behind a character that stops the reader can make a pattern of the text. -/
theorem not_derivable_of_stop {c : Char} (leads : after K none (origin K s) text = .ok last)
    (stopped : (step K none last c).2 = .error e) (more : List Char) :
    ¬Derivable (text ++ c :: more) := by
  intro derived
  obtain ⟨final, whole⟩ := after_of_derivable K s derived
  rw [after_append_of_ok leads, after_cons_of_error stopped] at whole
  contradiction

inductive Failure (K : Construction σ α β) (s : σ) (text : List Char) : PatternError → Prop where
  | stops {before behind : List Char} {c : Char} {last : Config σ α}
      (split : text = before ++ c :: behind) (place : Behind last before)
      (dead : ∀ more, ¬Derivable (before ++ c :: more)) :
      Failure K s text
        (.unexpected (if c = ')' then .endOfInput else .symbol) (some c) (utf8Len before))
  | opened {last : Config σ α} (place : Behind last text) (focus : last.focus = .opened) :
      Failure K s text (.inputEnds (utf8Len text))
  | inside {last : Config σ α} {group : Group α} {outer : List (Group α)}
      (place : Behind last text) (focus : last.focus ≠ .opened)
      (groups : last.groups = group :: outer) :
      Failure K s text (.unterminatedGroup group.opened (utf8Len text))

theorem failure_of_read (failed : (read K none s text).outcome = .error e) :
    Failure K s text e := by
  cases leads : after K none (origin K s) text with
  | error d =>
    rw [outcome_of_error leads] at failed
    cases failed
    obtain ⟨before, c, behind, last, rfl, reached, stopped⟩ := after_error_split leads
    have place := behind_of_after reached
    have dead := not_derivable_of_stop reached stopped
    have stops : Failure K s (before ++ c :: behind) _ := .stops rfl place dead
    rw [← place.offset] at stops
    rcases stop_cases stopped with ⟨rfl, rfl⟩ | ⟨n, limited, _⟩ | ⟨notClose, rfl⟩
    · exact stops
    · contradiction
    · rwa [if_neg notClose] at stops
  | ok last =>
    rw [outcome_of_ok leads] at failed
    have place := behind_of_after leads
    by_cases focus : last.focus = .opened
    · rw [finish_of_opened focus, place.offset] at failed
      cases failed
      exact .opened place focus
    · cases groups : last.groups with
      | nil =>
        rw [finish_of_nil focus groups] at failed
        contradiction
      | cons group outer =>
        rw [finish_of_cons focus groups, place.offset] at failed
        cases failed
        exact .inside place focus groups

theorem le_offset_of_outcome {u v : List Char} (leads : after K none (origin K s) u = .ok last)
    (failed : (read K none s (u ++ v)).outcome = .error e) : utf8Len u ≤ e.offset := by
  have reason := failure_of_read failed
  generalize whole : u ++ v = text at reason
  cases reason with
  | stops split place dead =>
    simp only [PatternError.offset]
    subst text
    rcases List.append_eq_append_iff.mp split with ⟨w, rfl, _⟩ | ⟨w, rfl, rest⟩
    · rw [String.utf8Len_append]
      omega
    · cases w with
      | nil => simp
      | cons d w =>
        -- the character that stops the reader would stand in what can be completed
        obtain ⟨rfl, _⟩ := List.cons.inj rest
        obtain ⟨more, derived⟩ := (behind_of_after leads).completes
        rw [List.append_assoc] at derived
        exact absurd derived (dead (w ++ more))
  | opened place focus =>
    rw [← whole]
    simp only [PatternError.offset, String.utf8Len_append]
    omega
  | inside place focus groups =>
    rw [← whole]
    simp only [PatternError.offset, String.utf8Len_append]
    omega

end Reader

theorem viable_iff {text : String} : Viable text ↔ ∃ more, Derivable (text.toList ++ more) := by
  constructor
  · intro ⟨more, A, success⟩
    have derived := Reader.derivable_of_read success
    rw [String.toList_append] at derived
    exact ⟨more.toList, derived⟩
  · intro ⟨more, derived⟩
    refine ⟨String.ofList more, ?_⟩
    apply (Reader.read_ok_iff_derivable _).mpr
    rwa [String.toList_append, String.toList_ofList]

/-- The error says where the longest part ends that some pattern begins with, and what is
    wrong there. -/
def Explains (pattern : String) (e : PatternError) : Prop :=
  ∃ before behind : String, pattern = before ++ behind ∧ before.utf8ByteSize = e.offset ∧
    Viable before ∧
    match e with
    | .unexpected expected found _ => ∃ c rest, behind = String.singleton c ++ rest ∧
        found = some c ∧ ¬Viable (before ++ String.singleton c) ∧
        expected = if c = ')' then .endOfInput else .symbol
    | .inputEnds _ => behind = "" ∧ before.toList.getLast? = some '('
    | .unterminatedGroup opened _ => behind = "" ∧ before.toList.getLast? ≠ some '(' ∧
        Innermost before.toList opened
    | .tooDeep _ _ => False

theorem compile_error_explained (pattern : String) (e : PatternError)
    (failed : compile none pattern = .error e) : Explains pattern e := by
  have viable (before : String) {last : Config NameSupply Automaton}
      (place : Reader.Behind last before.toList) : Viable before := viable_iff.mpr place.completes
  have reason := Reader.failure_of_read failed
  cases reason with
  | @stops before behind c last split place dead =>
    have same : pattern = String.ofList before ++ String.ofList (c :: behind) := by
      rw [← String.ofList_append, ← split, String.ofList_toList]
    refine ⟨String.ofList before, String.ofList (c :: behind), same, ?_, ?_, c,
      String.ofList behind, ?_, rfl, ?_, rfl⟩
    · exact String.utf8ByteSize_ofList before
    · exact viable _ (by rwa [String.toList_ofList])
    · exact String.ofList_cons
    · intro possible
      obtain ⟨more, derived⟩ := viable_iff.mp possible
      rw [String.toList_append, String.toList_ofList, String.toList_singleton, List.append_assoc]
        at derived
      exact dead more derived
  | opened place focus =>
    refine ⟨pattern, "", (String.append_empty).symm, (String.utf8Len_toList pattern).symm,
      viable _ place, rfl, place.opened.mp focus⟩
  | inside place focus groups =>
    have trail := place.trail
    rw [groups] at trail
    refine ⟨pattern, "", (String.append_empty).symm, (String.utf8Len_toList pattern).symm,
      viable _ place, rfl, ?_, trail.innermost⟩
    intro last
    exact focus (place.opened.mpr last)

theorem explains_unclosed : compile none "b(a)|((e*|a" = .error (.unterminatedGroup 6 11) ∧
    Explains "b(a)|((e*|a" (.unterminatedGroup 6 11) := by
  have failed : compile none "b(a)|((e*|a" = .error (.unterminatedGroup 6 11) := by rfl
  exact ⟨failed, compile_error_explained _ _ failed⟩

end Thompson
