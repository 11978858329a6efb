import Mathlib.Data.String.Basic
import Thompson.Diagnostic
import Thompson.Proofs.Pattern.Limit

/-!
The ranges of bytes that a diagnostic marks. Whatever the limit, reading stops behind characters
that take one byte each: before a character that has no place, before a parenthesis that is one
too many, or at the end of the text. So a range can be made one byte wider without cutting a
character in two or passing the end, and all marks are on the first line.
-/
namespace Thompson

open String (utf8Len)

section Reading

variable {σ α β : Type} {K : Construction σ α β} {limit : Option Nat} {s : σ} {text : List Char}
  {e : PatternError} {n offset : Nat}

namespace Reader

theorem opening_of_tooDeep (failed : (read K limit s text).outcome = .error (.tooDeep n offset)) :
    ∃ before behind, ∃ last : Config σ α, text = before ++ '(' :: behind ∧ Behind last before ∧
      offset = utf8Len before := by
  cases leads : after K limit (origin K s) text with
  | error d =>
    rw [outcome_of_error leads] at failed
    cases failed
    obtain ⟨before, c, behind, last, split, reached, stopped⟩ := after_error_split leads
    have place := behind_of_after reached
    have move := step_move K limit last c
    rw [stopped] at move
    cases move with
    | tooDeep limited deep => exact ⟨before, behind, last, split, place, place.offset⟩
  | ok last =>
    rw [outcome_of_ok leads] at failed
    by_cases focus : last.focus = .opened
    · rw [finish_of_opened focus] at failed
      cases failed
    · cases groups : last.groups with
      | nil =>
        rw [finish_of_nil focus groups] at failed
        cases failed
      | cons group outer =>
        rw [finish_of_cons focus groups] at failed
        cases failed

end Reader

/-- Where an error lies in the text. -/
inductive Located (text : List Char) : PatternError → Prop where
  | character {before behind : List Char} {c : Char} (expected : Expectation)
      (split : text = before ++ c :: behind) (begun : ∃ more, Derivable (before ++ more)) :
      Located text (.unexpected expected (some c) (utf8Len before))
  | opening {before behind : List Char} (limit : Nat) (split : text = before ++ '(' :: behind)
      (begun : ∃ more, Derivable (before ++ more)) : Located text (.tooDeep limit (utf8Len before))
  | ending (begun : ∃ more, Derivable (text ++ more)) : Located text (.inputEnds (utf8Len text))
  | unclosed {before behind : List Char} (split : text = before ++ '(' :: behind)
      (begun : ∃ more, Derivable (text ++ more)) :
      Located text (.unterminatedGroup (utf8Len before) (utf8Len text))

/-- An error that the limit has no part in is that of the text without a limit. -/
theorem located_of_read (failed : (Reader.read K limit s text).outcome = .error e) :
    Located text e := by
  by_cases deep : ∃ n offset, e = .tooDeep n offset
  · obtain ⟨n, offset, rfl⟩ := deep
    obtain ⟨before, behind, last, split, place, rfl⟩ := Reader.opening_of_tooDeep failed
    exact .opening n split place.completes
  · have free : (Reader.read K none s text).outcome = .error e := by
      cases limit with
      | none => exact failed
      | some n =>
        rw [← failed]
        refine (Reader.read_of_not_tooDeep (n := n) ?_ ?_).symm
        · intro offset met
          rw [failed] at met
          exact deep ⟨n, offset, Except.error.inj met⟩
        · intro m limited
          cases limited
          exact Nat.le_refl n
    cases Reader.failure_of_read free with
    | stops split place dead => exact .character _ split place.completes
    | opened place focus => exact .ending place.completes
    | inside place focus groups =>
      have trail := place.trail
      rw [groups] at trail
      obtain ⟨before, behind, split, opened, _⟩ := trail
      rw [← opened]
      exact .unclosed split place.completes

end Reading

section Cutting

def cutOut (text : String) (range : Nat × Nat) : String :=
  String.Pos.Raw.extract text ⟨range.1⟩ ⟨range.2⟩

/-- A text can be cut at both ends of a range: they come in order, lie within the text, and stand
    between its characters. -/
structure Cuts (range : Nat × Nat) (text : String) : Prop where
  ordered : range.1 ≤ range.2
  inside : range.2 ≤ text.utf8ByteSize
  first : (⟨range.1⟩ : String.Pos.Raw).IsValid text
  last : (⟨range.2⟩ : String.Pos.Raw).IsValid text

/-- A row of characters stands in the range. -/
def Stands (inner : List Char) (range : Nat × Nat) (text : List Char) : Prop :=
  ∃ before behind, text = before ++ inner ++ behind ∧
    range = (utf8Len before, utf8Len before + utf8Len inner)

variable {inner before behind : List Char} {range : Nat × Nat} {text : String}

theorem isValid_utf8Len (split : text.toList = before ++ behind) :
    (⟨utf8Len before⟩ : String.Pos.Raw).IsValid text := by
  refine String.Pos.Raw.isValid_iff_exists_append.mpr
    ⟨String.ofList before, String.ofList behind, ?_, ?_⟩
  · rw [← String.ofList_append, ← split, String.ofList_toList]
  · rw [String.rawEndPos, String.utf8ByteSize_ofList]

theorem Stands.cuts (stands : Stands inner range text.toList) : Cuts range text := by
  obtain ⟨before, behind, split, rfl⟩ := stands
  have last := isValid_utf8Len split
  rw [String.utf8Len_append] at last
  rw [List.append_assoc] at split
  exact ⟨Nat.le_add_right _ _, last.le_utf8ByteSize, isValid_utf8Len split, last⟩

theorem Stands.part_eq (stands : Stands inner range text.toList) :
    cutOut text range = String.ofList inner := by
  obtain ⟨before, behind, split, rfl⟩ := stands
  have taken := String.extract_of_valid before inner behind
  rwa [← split, String.ofList_toList] at taken

end Cutting

section Plain

variable {before behind : List Char}

theorem utf8Len_of_plain (plain : before ⊆ patternCharacters) : utf8Len before = before.length := by
  induction before with
  | nil => rfl
  | cons c before ih =>
    have small : ∀ d ∈ patternCharacters, d.utf8Size = 1 := by
      simp only [patternCharacters, List.forall_mem_cons, List.not_mem_nil, false_implies,
        implies_true, and_true]
      decide
    obtain ⟨here, later⟩ := List.cons_subset.mp plain
    rw [String.utf8Len_cons, ih later, small c here, List.length_cons]

theorem charsBefore_utf8Len (before behind : List Char) :
    charsBefore (utf8Len before) (before ++ behind) = before := by
  induction before with
  | nil => cases behind <;> rfl
  | cons c before ih =>
    have size := Char.utf8Size_pos c
    obtain ⟨n, some⟩ : ∃ n, utf8Len (c :: before) = n + 1 :=
      ⟨utf8Len before + c.utf8Size - 1, by rw [String.utf8Len_cons]; omega⟩
    have left : n + 1 - c.utf8Size = utf8Len before := by
      rw [← some, String.utf8Len_cons]
      omega
    rw [some, List.cons_append, charsBefore, left, ih]
    · simp

theorem prefix_firstLine (plain : before ⊆ patternCharacters) :
    before <+: firstLine (before ++ behind) := by
  have ordinary : ∀ c ∈ before, c ≠ '\n' ∧ c ≠ '\x0d' := by
    have each : ∀ c ∈ patternCharacters, c ≠ '\n' ∧ c ≠ '\x0d' := by
      simp [patternCharacters]
    exact fun c member => each c (plain member)
  have taken : (before ++ behind).takeWhile (· ≠ '\n') = before ++ behind.takeWhile (· ≠ '\n') :=
    List.takeWhile_append_of_pos fun c member => by simpa using (ordinary c member).1
  simp only [firstLine, taken]
  split
  · rename_i ends
    cases line : behind.takeWhile (· ≠ '\n') with
    | nil =>
      rw [line, List.append_nil] at ends
      exact absurd rfl (ordinary _ (List.mem_of_getLast? ends.2)).2
    | cons c rest =>
      rw [List.dropLast_append_of_ne_nil (List.cons_ne_nil c rest)]
      exact List.prefix_append _ _
  · exact List.prefix_append _ _

end Plain

section Widening

variable {first last length : Nat}

theorem widen_of_ne (wide : first ≠ last) : widen (first, last) length = (first, last) :=
  if_neg wide

theorem widen_inside (inside : first < length) : widen (first, first) length = (first, first + 1) := by
  rw [widen, if_pos rfl, Nat.min_eq_left inside]

theorem widen_end (length : Nat) : widen (length, length) length = (length, length) := by
  rw [widen, if_pos rfl, Nat.min_eq_right (Nat.le_succ length)]

end Widening

namespace Located

variable {text : List Char} {e : PatternError}

theorem exists_before (located : Located text e) : ∃ before behind, text = before ++ behind ∧
    utf8Len before = e.offset ∧ before ⊆ patternCharacters := by
  have plain {before : List Char} (begun : ∃ more, Derivable (before ++ more)) :
      before ⊆ patternCharacters := by
    obtain ⟨more, d, spelled⟩ := begun
    have all := d.text_subset
    rw [spelled] at all
    exact (List.append_subset.mp all).1
  cases located with
  | character expected split begun => exact ⟨_, _, split, rfl, plain begun⟩
  | opening limit split begun => exact ⟨_, _, split, rfl, plain begun⟩
  | ending begun => exact ⟨_, _, (List.append_nil text).symm, rfl, plain begun⟩
  | unclosed split begun => exact ⟨_, _, (List.append_nil text).symm, rfl, plain begun⟩

theorem stands_found {expected : Expectation} {found : Option Char} {offset : Nat}
    (located : Located text (.unexpected expected found offset)) :
    ∃ c, found = some c ∧ Stands [c] (offset, offset + c.utf8Size) text := by
  cases located with
  | @character before behind c expected split begun =>
    exact ⟨c, rfl, before, behind, by simp [split], by simp⟩

theorem stands_opened {opened offset : Nat} (located : Located text (.unterminatedGroup opened offset)) :
    Stands ['('] (opened, opened + 1) text := by
  cases located with
  | @unclosed before behind split begun => exact ⟨before, behind, by simp [split], rfl⟩

theorem stands_span (located : Located text e) : ∃ inner, Stands inner e.span text := by
  cases located with
  | @character before behind c expected split begun =>
    obtain ⟨_, same, stands⟩ := stands_found (.character expected split begun)
    cases same
    exact ⟨[c], stands⟩
  | @opening before behind limit split begun => exact ⟨[], before, '(' :: behind, by simp [split], rfl⟩
  | ending begun => exact ⟨[], text, [], by simp, rfl⟩
  | @unclosed before behind split begun =>
    refine ⟨'(' :: behind, before, [], by simp [split], ?_⟩
    rw [PatternError.span, split, String.utf8Len_append]

/-- Carets stand under one character or behind the text. The empty range of an error is made wider
    only where a parenthesis stands, which takes one byte. -/
theorem stands_carets (located : Located text e) :
    (∃ c, Stands [c] (e.caretRange (utf8Len text)) text) ∨
      e.caretRange (utf8Len text) = (utf8Len text, utf8Len text) := by
  cases located with
  | @character before behind c expected split begun =>
    obtain ⟨_, same, stands⟩ := stands_found (.character expected split begun)
    cases same
    have size := Char.utf8Size_pos c
    have wide : utf8Len before ≠ utf8Len before + c.utf8Size := by omega
    have kept : PatternError.caretRange (.unexpected expected (some c) (utf8Len before))
        (utf8Len text) = (utf8Len before, utf8Len before + c.utf8Size) := widen_of_ne wide
    rw [kept]
    exact Or.inl ⟨c, stands⟩
  | @opening before behind limit split begun =>
    refine Or.inl ⟨'(', before, behind, by simp [split], ?_⟩
    have inside : utf8Len before < utf8Len text := by
      have size := Char.utf8Size_pos '('
      rw [split, String.utf8Len_append, String.utf8Len_cons]
      omega
    exact widen_inside inside
  | ending begun => exact Or.inr (widen_end _)
  | unclosed split begun => exact Or.inr (widen_end _)

end Located

/-- Whatever is wrong with a text and whatever the limit, the text can be cut at the ends of every
    range that is marked. The span of a character that was found holds that character; carets
    stand under something, unless they stand behind the text; and where a group is opened there is
    a parenthesis. In front of the error stand characters of patterns alone, so it lies on the
    first line, as many characters from its beginning as bytes. -/
theorem error_ranges_valid (limit : Option Nat) (pattern : String) (e : PatternError)
    (failed : compile limit pattern = .error e) :
    let carets := e.caretRange pattern.utf8ByteSize
    let before := charsBefore e.offset pattern.toList
    (Cuts e.span pattern ∧ ∀ expected found offset, e = .unexpected expected found offset →
      ∃ c, found = some c ∧ cutOut pattern e.span = String.singleton c) ∧
    (Cuts carets pattern ∧ (carets.1 = carets.2 → carets.1 = pattern.utf8ByteSize)) ∧
    (∀ opened offset, e = .unterminatedGroup opened offset →
      e.groupRange = some (opened, opened + 1) ∧
      widen (opened, opened + 1) pattern.utf8ByteSize = (opened, opened + 1) ∧
      Cuts (opened, opened + 1) pattern ∧ cutOut pattern (opened, opened + 1) = "(") ∧
    before ⊆ patternCharacters ∧ utf8Len before = e.offset ∧ before.length = e.offset ∧
    before <+: firstLine pattern.toList := by
  intro carets before
  have located : Located pattern.toList e := located_of_read failed
  refine ⟨⟨?_, ?_⟩, ?_, ?_, ?_⟩
  · obtain ⟨inner, stands⟩ := located.stands_span
    exact stands.cuts
  · rintro expected found offset rfl
    obtain ⟨c, rfl, stands⟩ := located.stands_found
    exact ⟨c, rfl, stands.part_eq⟩
  · have place := located.stands_carets
    rw [String.utf8Len_toList] at place
    rcases place with ⟨c, stands⟩ | behind
    · refine ⟨stands.cuts, fun empty => ?_⟩
      have size := Char.utf8Size_pos c
      obtain ⟨first, rest, _, range⟩ := stands
      obtain ⟨start, stop⟩ := Prod.mk.inj (show (carets.1, carets.2) = _ from range)
      rw [String.utf8Len_cons, String.utf8Len_nil] at stop
      omega
    · have ends : Stands [] carets pattern.toList :=
        ⟨pattern.toList, [], by simp, by simpa using behind⟩
      exact ⟨ends.cuts, fun _ => congrArg Prod.fst behind⟩
  · rintro opened offset rfl
    have stands := located.stands_opened
    exact ⟨rfl, widen_of_ne (Nat.ne_of_lt (Nat.lt_succ_self opened)), stands.cuts, stands.part_eq⟩
  · obtain ⟨first, behind, split, place, plain⟩ := located.exists_before
    have same : before = first := by
      show charsBefore e.offset pattern.toList = first
      rw [split, ← place, charsBefore_utf8Len]
    rw [same, split, ← place, utf8Len_of_plain plain]
    exact ⟨plain, rfl, rfl, prefix_firstLine plain⟩

/-- The character that has no place takes two bytes, in front of a line break. -/
theorem error_ranges_valid_two_bytes :
    compile (some 1) "b(e|é\n" = .error (.unexpected .symbol (some 'é') 4) ∧
    Cuts (4, 6) "b(e|é\n" ∧ cutOut "b(e|é\n" (4, 6) = "é" ∧
    "b(e|".toList <+: firstLine "b(e|é\n".toList := by
  have failed : compile (some 1) "b(e|é\n" = .error (.unexpected .symbol (some 'é') 4) := by rfl
  obtain ⟨⟨span, found⟩, _, _, _, _, _, line⟩ := error_ranges_valid (some 1) _ _ failed
  obtain ⟨_, same, whole⟩ := found _ _ _ rfl
  cases same
  exact ⟨failed, span, whole, line⟩

end Thompson
