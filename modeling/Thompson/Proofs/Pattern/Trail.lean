import Mathlib.Data.List.Infix
import Thompson.Proofs.Pattern.Reading
import Thompson.Proofs.Pattern.Parentheses
import Thompson.Proofs.Pattern.Step

/-!
What the reader has behind it. Whatever was read is a row of texts that the grammar derives,
with an opening parenthesis between each and the next; the groups that are open are those
parentheses. Every character keeps this. So a text that is read to its end with no group open
is derived by the grammar, and one with groups open lacks only their parentheses.
-/
namespace Thompson

open String (utf8Len)

def openGroups (text : List Char) : Nat := text.count '(' - text.count ')'

/-- The most groups that are open behind any part of a text from its beginning. -/
def mostOpen (text : List Char) : Nat := (text.inits.map openGroups).max?.getD 0

theorem openGroups_le_mostOpen (u v : List Char) : openGroups u ≤ mostOpen (u ++ v) :=
  List.le_max?_getD_of_mem
    (List.mem_map_of_mem ((List.mem_inits _ _).mpr (List.prefix_append u v)))

namespace Reader

variable {σ α β : Type} {K : Construction σ α β} {limit : Option Nat}

/-- The text is derived inside and around each of the groups, of which the innermost comes first. -/
def Trail : List (Group α) → List Char → Prop
  | [], text => Derivable text
  | group :: outer, text => ∃ before inner, text = before ++ '(' :: inner ∧
      utf8Len before = group.opened ∧ Trail outer before ∧ Derivable inner

namespace Trail

variable {groups : List (Group α)} {group : Group α} {text : List Char}

theorem append_factor (h : Trail groups text) (f : Derivation .factor) :
    Trail groups (text ++ f.text) := by
  cases groups with
  | nil => exact Derivable.append_factor h f
  | cons group outer =>
    obtain ⟨before, inner, rfl, opened, around, derived⟩ := h
    refine ⟨before, inner ++ f.text, ?_, opened, around, derived.append_factor f⟩
    rw [List.append_assoc, List.cons_append]

theorem append_bar (h : Trail groups text) : Trail groups (text ++ ['|']) := by
  cases groups with
  | nil => exact Derivable.append_bar h derivable_nil
  | cons group outer =>
    obtain ⟨before, inner, rfl, opened, around, derived⟩ := h
    refine ⟨before, inner ++ ['|'], ?_, opened, around, derived.append_bar derivable_nil⟩
    rw [List.append_assoc, List.cons_append]

theorem append_open (h : Trail groups text) (opened : utf8Len text = group.opened) :
    Trail (group :: groups) (text ++ ['(']) :=
  ⟨text, [], rfl, opened, h, derivable_nil⟩

theorem append_close (h : Trail (group :: groups) text) :
    ∃ before, ∃ f : Derivation .factor, text ++ [')'] = before ++ f.text ∧ Trail groups before := by
  obtain ⟨before, inner, rfl, _, around, r, rfl⟩ := h
  refine ⟨before, .once (.group r), ?_, around⟩
  rw [List.append_assoc]
  rfl

theorem count_open (h : Trail groups text) :
    text.count '(' = text.count ')' + groups.length := by
  induction groups generalizing text with
  | nil =>
    obtain ⟨r, rfl⟩ := h
    exact r.paired_text.total
  | cons group outer ih =>
    obtain ⟨before, inner, rfl, _, around, r, rfl⟩ := h
    have inside := r.paired_text.total
    have outside := ih around
    simp only [List.count_append, List.count_cons, List.length_cons]
    simp
    omega

theorem derivable_closed (h : Trail groups text) :
    Derivable (text ++ List.replicate groups.length ')') := by
  induction groups generalizing text with
  | nil =>
    rw [List.length_nil, List.replicate_zero, List.append_nil]
    exact h
  | cons group outer ih =>
    obtain ⟨before, f, same, around⟩ := h.append_close
    have closed := ih (around.append_factor f)
    rw [← same, List.append_assoc, List.singleton_append] at closed
    exact closed

theorem innermost (h : Trail (group :: groups) text) : Innermost text group.opened := by
  obtain ⟨before, inner, rfl, opened, _, r, rfl⟩ := h
  rw [← opened]
  exact r.paired_text.innermost before

end Trail

/-- The place that is reached when a text has been read. -/
structure Behind (cfg : Config σ α) (text : List Char) : Prop where
  offset : cfg.offset = utf8Len text
  trail : Trail cfg.groups text
  opened : cfg.focus = .opened ↔ text.getLast? = some '('
  factor : ∀ here value, cfg.focus = .factor here value →
    ∃ before, ∃ f : Derivation .factor, text = before ++ f.text ∧ Trail cfg.groups before

theorem Behind.origin (K : Construction σ α β) (s : σ) : Behind (origin K s) [] where
  offset := rfl
  trail := derivable_nil
  opened := by simp [origin_eq]
  factor _ _ focus := by contradiction

theorem IsLiteral.exists_factor {c : Char} (letter : IsLiteral c) :
    ∃ f : Derivation .factor, f.text = [c] := by
  rcases letter with symbol | mark
  · exact ⟨.once (.letter c symbol), rfl⟩
  · exact ⟨.once .mark, by rw [mark]; rfl⟩

theorem Behind.of_factor {cfg : Config σ α} {text before : List Char} {f : Derivation .factor}
    (offset : cfg.offset = utf8Len text) (same : text = before ++ f.text)
    (trail : Trail cfg.groups before) (focus : ∃ here value, cfg.focus = .factor here value)
    (last : text.getLast? ≠ some '(') : Behind cfg text where
  offset := offset
  trail := same ▸ trail.append_factor f
  opened := by
    obtain ⟨here, value, factor⟩ := focus
    simp [factor, last]
  factor _ _ _ := ⟨before, f, same, trail⟩

theorem Behind.step {cfg next : Config σ α} {text : List Char} {c : Char} (h : Behind cfg text)
    (one : (step K limit cfg c).2 = .ok next) : Behind next (text ++ [c]) := by
  have move := step_move K limit cfg c
  rw [one] at move
  have size : utf8Len (text ++ [c]) = cfg.offset + c.utf8Size := by
    rw [String.utf8Len_append, h.offset]
    simp
  generalize outcome : Except.ok next = result at move
  cases move with
  | star focus =>
    cases outcome
    obtain ⟨before, f, same, trail⟩ := h.factor _ _ focus
    refine .of_factor (f := .star f) size.symm ?_ trail ⟨_, _, rfl⟩ (by simp)
    rw [same, List.append_assoc]
    rfl
  | bar =>
    cases outcome
    exact ⟨size.symm, h.trail.append_bar, by simp, by simp⟩
  | close groups =>
    cases outcome
    have trail := h.trail
    rw [groups] at trail
    obtain ⟨before, f, same, around⟩ := trail.append_close
    exact .of_factor size.symm same around ⟨_, _, rfl⟩ (by simp)
  | opening shallow =>
    cases outcome
    exact ⟨size.symm, h.trail.append_open h.offset.symm, by simp, by simp⟩
  | letter letter =>
    cases outcome
    obtain ⟨f, spelled⟩ := letter.exists_factor
    refine .of_factor (f := f) size.symm (by rw [spelled]) h.trail ⟨_, _, rfl⟩ ?_
    have noOpen := letter.not_meta.2.2.1
    simpa using noOpen
  | stray groups => contradiction
  | tooDeep limited deep => contradiction
  | misplaced notBar notClose notOpen noLetter noStar => contradiction

theorem Behind.after {cfg next : Config σ α} {text more : List Char} (h : Behind cfg text)
    (leads : after K limit cfg more = .ok next) : Behind next (text ++ more) := by
  induction more generalizing cfg text with
  | nil =>
    cases leads
    simpa using h
  | cons c more ih =>
    cases one : (Reader.step K limit cfg c).2 with
    | error e =>
      rw [after_cons_of_error one] at leads
      contradiction
    | ok middle =>
      rw [after_cons_of_ok one] at leads
      have rest := ih (h.step one) leads
      rwa [List.append_assoc, List.singleton_append] at rest

theorem behind_of_after {s : σ} {text : List Char} {last : Config σ α}
    (leads : after K limit (Reader.origin K s) text = .ok last) : Behind last text :=
  (Behind.origin K s).after leads

theorem derivable_of_read {s : σ} {text : List Char} {value : α}
    (success : (read K limit s text).outcome = .ok value) : Derivable text := by
  cases leads : after K limit (Reader.origin K s) text with
  | error e =>
    rw [outcome_of_error leads] at success
    contradiction
  | ok last =>
    rw [outcome_of_ok leads] at success
    have trail := (behind_of_after leads).trail
    cases groups : last.groups with
    | nil =>
      rw [groups] at trail
      exact trail
    | cons group outer =>
      by_cases focus : last.focus = .opened
      · rw [finish_of_opened focus] at success
        contradiction
      · rw [finish_of_cons focus groups] at success
        contradiction

end Reader

end Thompson
