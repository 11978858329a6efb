import Thompson.Proofs.Pattern.Meaning

/-!
Patterns put together as texts. A bar between two patterns joins their languages, parentheses
keep the language of what they enclose, and patterns in a row mean the concatenation, if no bar
of theirs would reach over to the other. And a pattern in parentheses may be exchanged for
another one of the same language, whatever stands around it.
-/
namespace Thompson

open Computability

/-- Some bar has as many closing as opening parentheses before it. -/
def OuterBar (text : List Char) : Prop :=
  ∃ i < text.length, text[i]? = some '|' ∧ (text.take i).count '(' = (text.take i).count ')'

instance (text : List Char) : Decidable (OuterBar text) :=
  inferInstanceAs (Decidable (∃ i < text.length, text[i]? = some '|' ∧
    (text.take i).count '(' = (text.take i).count ')'))

namespace Derivation

theorem eq_last_of_not_outerBar {r : Derivation .regex} (none : ¬OuterBar r.text) :
    ∃ t, r = .last t := by
  cases r with
  | last t => exact ⟨t, rfl⟩
  | bar t q =>
    refine absurd ⟨t.text.length, ?_, ?_, ?_⟩ none
    · simp [text]
    · simp [text]
    · rw [text, List.take_left]
      exact t.paired_text.total

theorem language_appendTerm (t : Derivation .term) :
    (u : Derivation .term) → (t.appendTerm u).language = t.language * u.language
  | .nothing => by simp only [appendTerm, language, mul_one]
  | .more u f => by simp only [appendTerm, language, language_appendTerm t u, mul_assoc]

theorem language_alternate :
    (r q : Derivation .regex) → (r.alternate q).language = r.language + q.language
  | .last t, q => by simp only [alternate, language]
  | .bar t r, q => by simp only [alternate, language, language_alternate r q, add_assoc]

def alone (f : Derivation .factor) : Derivation .regex := .last (.more .nothing f)

theorem language_alone (f : Derivation .factor) : f.alone.language = f.language := by
  simp only [alone, language, one_mul]

def pair (f g : Derivation .factor) : Derivation .regex := .last (.more (.more .nothing f) g)

theorem language_pair (f g : Derivation .factor) :
    (f.pair g).language = f.language * g.language := by
  simp only [pair, language, one_mul]

def enclosed (r : Derivation .regex) : Derivation .factor := .once (.group r)

theorem text_enclosed (r : Derivation .regex) : r.enclosed.text = '(' :: r.text ++ [')'] := rfl

theorem language_enclosed (r : Derivation .regex) : r.enclosed.language = r.language := rfl

namespace Spells

variable {r q : Derivation .regex} {t u : Derivation .term} {x y : String} {L M : Language Char}

-- a pattern made of others is longer than each, so names last for them if they last for it

theorem alternate (first : r.Spells x L) (second : q.Spells y M) :
    (r.alternate q).Spells (x ++ "|" ++ y) (L + M) where
  text_eq := by simp [text_alternate, first.text_eq, second.text_eq]
  language_eq short := by
    simp only [String.utf8ByteSize_append] at short
    rw [language_alternate, first.language_eq (by omega), second.language_eq (by omega)]

theorem group (inner : r.Spells x L) : r.enclosed.alone.Spells ("(" ++ x ++ ")") L where
  text_eq := by simp [alone, text, text_enclosed, inner.text_eq]
  language_eq short := by
    simp only [String.utf8ByteSize_append] at short
    rw [language_alone, language_enclosed, inner.language_eq (by omega)]

theorem repetition (inner : r.Spells x L) :
    (alone (.star r.enclosed)).Spells ("(" ++ x ++ ")*") L∗ where
  text_eq := by simp [alone, text, text_enclosed, inner.text_eq]
  language_eq short := by
    simp only [String.utf8ByteSize_append] at short
    rw [language_alone, language, language_enclosed, inner.language_eq (by omega)]

theorem groups (first : r.Spells x L) (second : q.Spells y M) :
    (r.enclosed.pair q.enclosed).Spells ("(" ++ x ++ ")(" ++ y ++ ")") (L * M) where
  text_eq := by simp [pair, text, text_enclosed, first.text_eq, second.text_eq]
  language_eq short := by
    simp only [String.utf8ByteSize_append] at short
    rw [language_pair, language_enclosed, language_enclosed, first.language_eq (by omega),
      second.language_eq (by omega)]

theorem append (first : (last t).Spells x L) (second : (last u).Spells y M) :
    (last (t.appendTerm u)).Spells (x ++ y) (L * M) where
  text_eq := by
    rw [String.toList_append, ← first.text_eq, ← second.text_eq]
    exact text_appendTerm t u
  language_eq short := by
    rw [String.utf8ByteSize_append] at short
    rw [← first.language_eq (by omega), ← second.language_eq (by omega)]
    exact language_appendTerm t u

end Spells

end Derivation

section Exchange

/-- A construction that builds nothing still tells patterns from other texts. -/
def blank : Construction Unit Unit Unit where
  empty _ := ((), ())
  primitive _ _ := ((), ())
  concatenate _ _ := ()
  union _ _ _ := ((), ())
  repetition _ _ := ((), ())
  stamp := id
  describe _ := ()

theorem derivable_iff_blank (text : List Char) :
    Derivable text ↔ (Reader.read blank none () text).outcome.toOption = some () := by
  rw [← Reader.read_ok_iff_derivable (K := blank) ()]
  cases (Reader.read blank none () text).outcome with
  | error e => simp [Except.toOption]
  | ok value => simp [Except.toOption]

variable (r q : Derivation .regex) (u v : List Char)

/-- Whether a text is a pattern does not depend on which pattern stands in a group of it. -/
theorem derivable_enclosed_iff :
    Derivable (u ++ r.enclosed.text ++ v) ↔ Derivable (u ++ q.enclosed.text ++ v) := by
  have groups : Reader.Interchangeable blank none r.enclosed.text q.enclosed.text :=
    .of_factors fun _ => Subsingleton.elim _ _
  rw [derivable_iff_blank, derivable_iff_blank]
  rw [((groups.append_left u).append_right v).outcome ()]

variable {r q} in
theorem meaning?_enclosed_congr (same : r.language = q.language) :
    meaning? (u ++ r.enclosed.text ++ v) = meaning? (u ++ q.enclosed.text ++ v) := by
  have groups : Reader.Interchangeable languages none r.enclosed.text q.enclosed.text := by
    apply Reader.interchangeable_factors
    rw [Derivation.language_enclosed, Derivation.language_enclosed, same]
  exact ((groups.append_left u).append_right v).outcome ()

end Exchange

theorem Derivation.Spells.agree {r q : Derivation .regex} {x y : String} {L : Language Char}
    (first : r.Spells x L) (second : q.Spells y L) (u v : String) :
    Agree (u ++ "(" ++ x ++ ")" ++ v) (u ++ "(" ++ y ++ ")" ++ v) := by
  have left : (u ++ "(" ++ x ++ ")" ++ v).toList = u.toList ++ r.enclosed.text ++ v.toList := by
    simp [text_enclosed, first.text_eq]
  have right : (u ++ "(" ++ y ++ ")" ++ v).toList = u.toList ++ q.enclosed.text ++ v.toList := by
    simp [text_enclosed, second.text_eq]
  constructor
  · rw [exists_automaton_iff, exists_automaton_iff, left, right]
    exact derivable_enclosed_iff r q u.toList v.toList
  · intro shortX shortY
    have inside : r.language = q.language := by
      simp only [String.utf8ByteSize_append] at shortX shortY
      rw [first.language_eq (by omega), second.language_eq (by omega)]
    refine (Agree.of_meaning ?_).2 shortX shortY
    rw [left, right]
    exact meaning?_enclosed_congr u.toList v.toList inside

/-- What can be made of two patterns with the languages `L` and `M`. -/
structure Composes (x y : String) (L M : Language Char) : Prop where
  alternation : Denotes (x ++ "|" ++ y) (L + M)
  group : Denotes ("(" ++ x ++ ")") L
  repetition : Denotes ("(" ++ x ++ ")*") L∗
  groups : Denotes ("(" ++ x ++ ")(" ++ y ++ ")") (L * M)
  juxtaposition : ¬OuterBar x.toList → ¬OuterBar y.toList → Denotes (x ++ y) (L * M)
  exchange : L = M → ∀ u v : String, Agree (u ++ "(" ++ x ++ ")" ++ v) (u ++ "(" ++ y ++ ")" ++ v)

theorem compile_composes (x y : String) (A B : Automaton) (first : compile none x = .ok A)
    (second : compile none y = .ok B) : Composes x y A.language B.language := by
  obtain ⟨r, spellsX⟩ := exists_spells first
  obtain ⟨q, spellsY⟩ := exists_spells second
  constructor
  · exact (spellsX.alternate spellsY).denotes
  · exact spellsX.group.denotes
  · exact spellsX.repetition.denotes
  · exact (spellsX.groups spellsY).denotes
  · intro noBarX noBarY
    rw [← spellsX.text_eq] at noBarX
    rw [← spellsY.text_eq] at noBarY
    obtain ⟨t, rfl⟩ := Derivation.eq_last_of_not_outerBar noBarX
    obtain ⟨u, rfl⟩ := Derivation.eq_last_of_not_outerBar noBarY
    exact (spellsX.append spellsY).denotes
  · intro same u v
    rw [← same] at spellsY
    exact spellsX.agree spellsY u v

/-- Parentheses around the whole keep the language, so neither pattern can be told from the other
    inside of `b(a(…)b)*`. -/
theorem compile_composes_enclosed : ∃ A B, compile none "(a|b)*" = .ok A ∧
    compile none "((a|b)*)" = .ok B ∧ A.language = B.language ∧
    ¬OuterBar "(a|b)*".toList ∧ ¬OuterBar "((a|b)*)".toList ∧
    Denotes "(a|b)*((a|b)*)" (A.language * B.language) ∧
    Agree "b(a((a|b)*)b)*" "b(a(((a|b)*))b)*" := by
  have success : ∃ A, compile none "(a|b)*" = .ok A := ⟨_, rfl⟩
  obtain ⟨A, first⟩ := success
  obtain ⟨B, second, same⟩ := (compile_composes "(a|b)*" "(a|b)*" A A first first).group
  have equal : A.language = B.language := (same (by decide)).symm
  have left : ¬OuterBar "(a|b)*".toList := by decide
  have right : ¬OuterBar "((a|b)*)".toList := by decide
  have composed := compile_composes "(a|b)*" "((a|b)*)" A B first second
  exact ⟨A, B, first, second, equal, left, right, composed.juxtaposition left right,
    composed.exchange equal "b(a" "b)*"⟩

/-!
Rewriting a pattern in one place. Stars in a row mean what one star means, `e` means what an
empty group means, and a letter may stand in parentheses of its own. That holds wherever the
place is, and whether or not the text around it is a pattern at all.
-/

open Computability

namespace Reader

theorem interchangeable_stars : Interchangeable languages none ['*'] ['*', '*'] := by
  intro cfg
  rcases repeats_or_not cfg '*' with ⟨_, here, value, focus⟩ | noStar
  · obtain ⟨offset, s, groups, _⟩ := cfg
    cases focus
    rw [after_singleton, after_cons_of_ok step_star, after_singleton, step_star, step_star]
    refine .leads ⟨rfl, ?_, rfl⟩
    have twice : value∗∗ = value∗ := kstar_idem value
    exact congrArg (Focus.factor here) twice.symm
  · have stopped : (step languages none cfg '*').2 =
        .error (.unexpected .symbol (some '*') cfg.offset) :=
      step_other (by decide) (by decide) (by decide) (by simp [isLiteral_iff]) noStar
    rw [after_cons_of_error stopped, after_cons_of_error stopped]
    exact .stops _ _

theorem interchangeable_mark : Interchangeable languages none ['e'] ['(', ')'] :=
  @interchangeable_factors (.once .mark) (.once (.group (.last .nothing))) rfl

theorem interchangeable_literal {c : Char} (literal : IsLiteral c) :
    Interchangeable languages none [c] ['(', c, ')'] := by
  obtain ⟨f, spelled⟩ := literal.exists_factor
  let enclosed : Derivation .factor := .once (.group (.last (.more .nothing f)))
  have same : f.language = enclosed.language := by
    simp only [enclosed, Derivation.language, one_mul]
  have text : enclosed.text = ['(', c, ')'] := by
    simp only [enclosed, Derivation.text, spelled, List.nil_append, List.cons_append]
  rw [← spelled, ← text]
  exact interchangeable_factors same

end Reader

def withoutMark (p : String) : String :=
  String.ofList (p.toList.flatMap fun c => if c = emptyMark then ['(', ')'] else [c])

theorem agree_withoutMark (p : String) : Agree p (withoutMark p) := by
  apply Agree.of_meaning
  rw [withoutMark, String.toList_ofList]
  refine Reader.Interchangeable.outcome (.flatMap ?_ p.toList) ()
  intro c
  split
  · rename_i mark
    rw [mark]
    exact Reader.interchangeable_mark
  · exact .refl [c]

/-- Each of the rewritings keeps a text a pattern, keeps it none, and keeps what it accepts; the
    second one also everywhere at once. -/
theorem rewritings_agree (u v : String) :
    Agree (u ++ "*" ++ v) (u ++ "**" ++ v) ∧
    Agree (u ++ "e" ++ v) (u ++ "()" ++ v) ∧
    (∀ c ∈ ['a', 'b', 'e'],
      Agree (u ++ String.singleton c ++ v) (u ++ ("(" ++ String.singleton c ++ ")") ++ v)) ∧
    Agree u (withoutMark u) := by
  refine ⟨?_, ?_, ?_, agree_withoutMark u⟩
  · apply Agree.in_context
    exact Reader.interchangeable_stars
  · apply Agree.in_context
    exact Reader.interchangeable_mark
  · intro c letter
    apply Agree.in_context
    have literal : Reader.IsLiteral c := Reader.isLiteral_iff.mpr (by simpa using letter)
    have text : ("(" ++ String.singleton c ++ ")").toList = ['(', c, ')'] := by simp
    rw [String.toList_singleton, text]
    exact Reader.interchangeable_literal literal

theorem rewritings_agree_nested : ∃ A B, compile none "b(ba|e)*" = .ok A ∧
    compile none "b(b(a)|e)*" = .ok B ∧ A.language = B.language := by
  have agree : Agree "b(ba|e)*" "b(b(a)|e)*" := (rewritings_agree "b(b" "|e)*").2.2.1 'a' (by decide)
  have success : ∃ A, compile none "b(ba|e)*" = .ok A := ⟨_, rfl⟩
  obtain ⟨A, first⟩ := success
  obtain ⟨B, second⟩ := agree.1.mp ⟨A, first⟩
  exact ⟨A, B, first, second, agree.2 (by decide) (by decide) A B first second⟩

end Thompson
