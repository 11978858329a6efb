import Mathlib.Data.Nat.Find
import Mathlib.Data.String.Basic
import Thompson.Pattern.Grammar

/-!
Parentheses in texts. In a text that the grammar derives they come in pairs; in a part of
a pattern an opening one may be left without its partner, and the last such one is the
innermost.
-/
namespace Thompson

open String (utf8Len)

structure Paired (text : List Char) : Prop where
  total : text.count '(' = text.count ')'
  before : ∀ u v, text = u ++ v → u.count ')' ≤ u.count '('

namespace Paired

variable {s t : List Char}

theorem nil : Paired [] := by
  constructor
  · rfl
  · intro u v same
    obtain ⟨rfl, rfl⟩ := List.nil_eq_append_iff.mp same
    exact Nat.le_refl _

theorem singleton {c : Char} (notOpen : c ≠ '(') (notClose : c ≠ ')') : Paired [c] := by
  constructor
  · rw [List.count_eq_zero.mpr (by simpa using notOpen.symm),
      List.count_eq_zero.mpr (by simpa using notClose.symm)]
  · intro u v same
    have part : u <+: [c] := ⟨v, same.symm⟩
    have none : u.count ')' = 0 := by
      refine List.count_eq_zero.mpr fun member => ?_
      have := part.subset member
      simp [notClose.symm] at this
    omega

theorem append (first : Paired s) (second : Paired t) : Paired (s ++ t) := by
  constructor
  · rw [List.count_append, List.count_append, first.total, second.total]
  · intro u v same
    rcases List.append_eq_append_iff.mp same with ⟨w, rfl, rest⟩ | ⟨w, rfl, rest⟩
    · have := first.total
      have := second.before w v rest
      simp only [List.count_append]
      omega
    · exact first.before u w rfl

theorem group (inner : Paired t) : Paired ('(' :: t ++ [')']) := by
  have total := inner.total
  constructor
  · simp only [List.cons_append, List.count_cons, List.count_append, List.count_nil]
    simp
    omega
  · intro u v same
    rcases List.append_eq_append_iff.mp same with ⟨w, rfl, rest⟩ | ⟨w, whole, rest⟩
    · have part : w <+: [')'] := ⟨v, rest.symm⟩
      have few := part.sublist.count_le ')'
      simp only [List.cons_append, List.count_cons, List.count_append]
      simp at few ⊢
      omega
    · cases u with
      | nil => simp
      | cons c u =>
        obtain ⟨rfl, inside⟩ := List.cons.inj whole
        have := inner.before u w inside
        simp only [List.count_cons]
        simp
        omega

end Paired

theorem Derivation.paired_text {rule : Rule} (d : Derivation rule) : Paired d.text := by
  induction d with
  | last t ih => exact ih
  | bar t r iht ihr =>
    have bar : Paired ['|'] := .singleton (by decide) (by decide)
    exact iht.append (bar.append ihr)
  | nothing => exact .nil
  | more t f iht ihf => exact iht.append ihf
  | once b ih => exact ih
  | star f ih => exact ih.append (.singleton (by decide) (by decide))
  | group r ih => exact ih.group
  | letter c symbol =>
    rcases isSymbol_iff.mp symbol with rfl | rfl
    · exact .singleton (by decide) (by decide)
    · exact .singleton (by decide) (by decide)
  | mark => exact .singleton (by decide) (by decide)

def NeverClosed (behind : List Char) : Prop :=
  ∀ u v, behind = u ++ v → u.count ')' ≤ u.count '('

structure Innermost (text : List Char) (opened : Nat) : Prop where
  unclosed : ∃ before behind, text = before ++ '(' :: behind ∧ utf8Len before = opened ∧
    NeverClosed behind
  last : ∀ before behind, text = before ++ '(' :: behind → NeverClosed behind →
    utf8Len before ≤ opened

theorem Paired.innermost {behind : List Char} (before : List Char) (paired : Paired behind) :
    Innermost (before ++ '(' :: behind) (utf8Len before) := by
  constructor
  · exact ⟨before, behind, rfl, rfl, paired.before⟩
  · intro other rest same unclosed
    rcases List.append_eq_append_iff.mp same with ⟨w, rfl, inside⟩ | ⟨w, rfl, _⟩
    · cases w with
      | nil => simp
      | cons c w =>
        -- an unclosed parenthesis inside would leave too many of them
        rw [List.cons_append] at inside
        obtain ⟨rfl, rfl⟩ := List.cons.inj inside
        have total := paired.total
        have left := paired.before w ('(' :: rest) rfl
        have right := unclosed rest [] (List.append_nil rest).symm
        simp only [List.count_append, List.count_cons] at total
        simp at total
        omega
    · rw [String.utf8Len_append]
      omega

/-!
How deep groups stand inside each other. The groups around a place are the parentheses that
are open there, so a text alone says where one is too deep; and a derivation that is too deep
spells such a place.
-/

open String (utf8Len)

/-- At `offset` a parenthesis opens with at least `n` more of them open than closed before it. -/
def DeepAt (n : Nat) (text : List Char) (offset : Nat) : Prop :=
  ∃ before behind, text = before ++ '(' :: behind ∧ utf8Len before = offset ∧
    before.count ')' + n ≤ before.count '('

structure FirstDeep (n : Nat) (text : List Char) (offset : Nat) : Prop where
  here : DeepAt n text offset
  least : ∀ other, DeepAt n text other → offset ≤ other

variable {m n offset : Nat} {u v text : List Char}

theorem DeepAt.exists_first (deep : DeepAt n text offset) : ∃ first, FirstDeep n text first := by
  classical
  have somewhere : ∃ offset, DeepAt n text offset := ⟨offset, deep⟩
  refine ⟨Nat.find somewhere, Nat.find_spec somewhere, ?_⟩
  intro other found
  exact Nat.find_min' somewhere found

theorem DeepAt.mono (deep : DeepAt n text offset) (less : m ≤ n) : DeepAt m text offset := by
  obtain ⟨before, behind, same, place, nested⟩ := deep
  exact ⟨before, behind, same, place, by omega⟩

theorem DeepAt.append (deep : DeepAt n u offset) (v : List Char) : DeepAt n (u ++ v) offset := by
  obtain ⟨before, behind, rfl, place, nested⟩ := deep
  exact ⟨before, behind ++ v, by rw [List.append_assoc]; rfl, place, nested⟩

theorem DeepAt.prepend (deep : DeepAt n v offset) (paired : Paired u) :
    DeepAt n (u ++ v) (utf8Len u + offset) := by
  obtain ⟨before, behind, rfl, place, nested⟩ := deep
  refine ⟨u ++ before, behind, (List.append_assoc ..).symm, ?_, ?_⟩
  · rw [String.utf8Len_append, place]
  · have total := paired.total
    simp only [List.count_append]
    omega

theorem DeepAt.lt_utf8Len (deep : DeepAt n text offset) : offset < utf8Len text := by
  obtain ⟨before, behind, rfl, place, _⟩ := deep
  have size := Char.utf8Size_pos '('
  rw [String.utf8Len_append, String.utf8Len_cons]
  omega

theorem FirstDeep.not_before (first : FirstDeep n (u ++ v) (utf8Len u)) (other : Nat) :
    ¬DeepAt n u other := by
  intro deep
  have far := first.least other (deep.append v)
  have near := deep.lt_utf8Len
  omega

/-- A derivation that is deeper than the limit spells a place where the limit is met. -/
theorem Derivation.exists_deepAt {rule : Rule} (d : Derivation rule) (deep : n < d.depth) :
    ∃ offset, DeepAt n d.text offset := by
  induction d generalizing n with
  | last t ih => exact ih deep
  | bar t r iht ihr =>
    simp only [depth] at deep
    by_cases left : n < t.depth
    · obtain ⟨offset, found⟩ := iht left
      exact ⟨offset, found.append _⟩
    · obtain ⟨offset, found⟩ := @ihr n (by omega)
      have bar : Paired ['|'] := .singleton (by decide) (by decide)
      have whole := (found.prepend bar).prepend t.paired_text
      exact ⟨_, whole⟩
  | nothing => exact absurd deep (Nat.not_lt_zero n)
  | more t f iht ihf =>
    simp only [depth] at deep
    by_cases left : n < t.depth
    · obtain ⟨offset, found⟩ := iht left
      exact ⟨offset, found.append _⟩
    · obtain ⟨offset, found⟩ := @ihf n (by omega)
      exact ⟨_, found.prepend t.paired_text⟩
  | once b ih => exact ih deep
  | star f ih =>
    obtain ⟨offset, found⟩ := ih deep
    exact ⟨offset, found.append _⟩
  | group r ih =>
    cases n with
    | zero => exact ⟨0, [], r.text ++ [')'], rfl, rfl, Nat.le_refl _⟩
    | succ n =>
      simp only [depth] at deep
      obtain ⟨offset, before, behind, same, place, nested⟩ := @ih n (by omega)
      refine ⟨_, '(' :: before, behind ++ [')'], ?_, rfl, ?_⟩
      · simp only [text, same, List.cons_append, List.append_assoc]
      · simp only [List.count_cons]
        simp
        omega
  | letter c symbol => exact absurd deep (Nat.not_lt_zero n)
  | mark => exact absurd deep (Nat.not_lt_zero n)

end Thompson
