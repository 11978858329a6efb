import Thompson.Pattern.Compile
import Thompson.Proofs.Pattern.Reading
import Thompson.Proofs.Pattern.Trail

/-!
Which texts are patterns. Without a limit, exactly those that the grammar derives have an
automaton, and these have a certain shape.
-/
namespace Thompson

namespace Reader

variable {σ α β : Type} {K : Construction σ α β} {text : List Char}

theorem after_of_derivable (K : Construction σ α β) (s : σ) (derived : Derivable text) :
    ∃ last, after K none (origin K s) text = .ok last := by
  obtain ⟨d, rfl⟩ := derived
  obtain ⟨last, _, _, _, leads, _⟩ :=
    reads K none d (origin K s) [] s (.branch 0 [] [] s) (.unlimited _)
  exact ⟨last, leads⟩

theorem read_ok_iff_derivable (s : σ) :
    (∃ value, (read K none s text).outcome = .ok value) ↔ Derivable text := by
  constructor
  · intro ⟨value, success⟩
    exact derivable_of_read success
  · intro ⟨d, spelled⟩
    subst text
    exact ⟨_, read_derivation K s d (.unlimited d.depth)⟩

end Reader

section Shape

def patternCharacters : List Char := ['a', 'b', 'e', '(', ')', '*', '|']

theorem Derivation.text_subset {rule : Rule} (d : Derivation rule) :
    d.text ⊆ patternCharacters := by
  induction d with
  | last t ih => exact ih
  | bar t r iht ihr =>
    exact List.append_subset.mpr ⟨iht, List.cons_subset.mpr ⟨by decide, ihr⟩⟩
  | nothing => exact List.nil_subset _
  | more t f iht ihf => exact List.append_subset.mpr ⟨iht, ihf⟩
  | once b ih => exact ih
  | star f ih => exact List.append_subset.mpr ⟨ih, by decide⟩
  | group r ih =>
    exact List.append_subset.mpr ⟨List.cons_subset.mpr ⟨by decide, ih⟩, by decide⟩
  | letter c symbol =>
    have ordinary : c ∈ patternCharacters := by
      rcases isSymbol_iff.mp symbol with rfl | rfl <;> decide
    simpa [text] using ordinary
  | mark => decide

theorem Derivation.getLast_factor (f : Derivation .factor) :
    ∃ c, f.text.getLast? = some c ∧ c ≠ '(' ∧ c ≠ '|' := by
  cases f with
  | star f => exact ⟨'*', by simp [text], by decide, by decide⟩
  | once b =>
    cases b with
    | group r => exact ⟨')', List.getLast?_concat, by decide, by decide⟩
    | letter c symbol =>
      rcases isSymbol_iff.mp symbol with rfl | rfl
      · exact ⟨'a', rfl, by decide, by decide⟩
      · exact ⟨'b', rfl, by decide, by decide⟩
    | mark => exact ⟨'e', rfl, by decide, by decide⟩

theorem Derivable.before_star {before behind : List Char}
    (derived : Derivable (before ++ '*' :: behind)) :
    ∃ c, before.getLast? = some c ∧ c ≠ '(' ∧ c ≠ '|' := by
  obtain ⟨last, leads⟩ := Reader.after_of_derivable thompson ⟨0⟩ derived
  cases first : Reader.after thompson none (Reader.origin thompson ⟨0⟩) before with
  | error e =>
    rw [Reader.after_append_of_error first] at leads
    contradiction
  | ok cfg =>
    rw [Reader.after_append_of_ok first] at leads
    by_cases factor : ∃ here value, cfg.focus = .factor here value
    · obtain ⟨here, value, focus⟩ := factor
      obtain ⟨prior, f, same, _⟩ := (Reader.behind_of_after first).factor here value focus
      obtain ⟨c, last, noOpen, noBar⟩ := f.getLast_factor
      exact ⟨c, by simp [same, List.getLast?_append, last], noOpen, noBar⟩
    · have stopped : (Reader.step thompson none cfg '*').2 =
          .error (.unexpected .symbol (some '*') cfg.offset) :=
        Reader.step_other (by decide) (by decide) (by decide) (by simp [Reader.isLiteral_iff])
          (Or.inr fun here value focus => factor ⟨here, value, focus⟩)
      rw [Reader.after_cons_of_error stopped] at leads
      contradiction

end Shape

/-- A text has an automaton exactly if it is a pattern. Patterns may be empty, and so may
    branches and groups; but only seven characters have a place in them, parentheses come in
    pairs, and a star has a factor before it. -/
theorem compile_ok_iff_derivable (pattern : String) :
    ((∃ A, compile none pattern = .ok A) ↔ Derivable pattern.toList) ∧
    (Derivable [] ∧ ∀ u v, Derivable u → Derivable v →
      Derivable (u ++ '|' :: v) ∧ Derivable ('(' :: u ++ [')'])) ∧
    (Derivable pattern.toList → pattern.toList ⊆ patternCharacters ∧ Paired pattern.toList ∧
      ∀ before behind, pattern.toList = before ++ '*' :: behind →
        ∃ c, before.getLast? = some c ∧ c ≠ '(' ∧ c ≠ '|') := by
  refine ⟨Reader.read_ok_iff_derivable _, ⟨derivable_nil, ?_⟩, ?_⟩
  · intro u v first second
    exact ⟨first.append_bar second, first.group⟩
  · intro derived
    refine ⟨?_, ?_, ?_⟩
    · obtain ⟨d, spelled⟩ := derived
      rw [← spelled]
      exact d.text_subset
    · obtain ⟨d, spelled⟩ := derived
      rw [← spelled]
      exact d.paired_text
    · intro before behind same
      rw [same] at derived
      exact derived.before_star

end Thompson
