import Thompson.Pattern.Compile
import Thompson.Pattern.Grammar
import Thompson.Proofs.Automaton.Subsets
import Thompson.Proofs.Fragment.Recognition
import Thompson.Proofs.Pattern.Limit
import Thompson.Proofs.Pattern.NameCount
import Thompson.Proofs.Pattern.Unambiguous

/-!
Automata recognize what patterns mean. Along a derivation each operand is built with names
that come later than those of the operands before it, so operands share no state, and each
construction recognizes what the rule means. A pattern has one derivation, and the reader
follows it; so an input is accepted exactly if it is in the language of the pattern.
-/
namespace Thompson

variable {s : NameSupply} {t : Derivation .term} {r : Derivation .regex}
  {f : Derivation .factor}

namespace Derivation

/-- Built from a supply with names enough, the automaton takes its states from the names that
    are handed out, and recognizes what the derivation means. -/
structure Faithful {rule : Rule} (d : Derivation rule) (s : NameSupply) : Prop where
  within : (d.build thompson s).1.Within s.issued.toNat (d.build thompson s).2.issued.toNat
  recognizes : ∀ w, (d.build thompson s).1.Recognizes w ↔ w ∈ d.language

theorem recognizes_stamp (first : t.Faithful s) (w : List Char) :
    ((t.build thompson s).1.addSymbols inputSymbols).Recognizes w ↔ w ∈ t.language := by
  rw [Automaton.recognizes_addSymbols]
  exact first.recognizes w

theorem faithful_last (term : t.Faithful s) : (last t).Faithful s :=
  ⟨term.within.addSymbols inputSymbols, recognizes_stamp term⟩

theorem faithful_bar (first : t.Faithful s) (second : r.Faithful (t.build thompson s).2)
    (room : (r.build thompson (t.build thompson s).2).2.HasRoom 1) : (bar t r).Faithful s := by
  have left := first.within.addSymbols inputSymbols
  have right := second.within
  constructor
  · exact Fragment.within_union left right room
  · intro w
    have either := Fragment.recognizes_union (w := w) left.wellFormed right.wellFormed
      (left.disjoint right) (left.next_not_mem (Nat.le_of_lt right.lt))
      (right.next_not_mem (Nat.le_refl _))
    rw [recognizes_stamp first, second.recognizes] at either
    simp only [language]
    rw [Language.mem_add]
    exact either

theorem faithful_nothing (room : s.HasRoom 2) : nothing.Faithful s := by
  constructor
  · exact Fragment.within_empty room
  · intro w
    simp only [language]
    rw [Language.mem_one]
    exact Fragment.recognizes_empty (room.mono (Nat.le_succ 1))

theorem faithful_more (first : t.Faithful s) (second : f.Faithful (t.build thompson s).2) :
    (more t f).Faithful s := by
  have left := first.within
  have right := second.within
  constructor
  · exact Fragment.within_concatenate left right
  · intro w
    have both := Fragment.recognizes_concatenate (w := w) left.wellFormed right.wellFormed
      (left.disjoint right)
    simp only [language]
    rw [Language.mem_mul]
    apply both.trans
    constructor
    · rintro ⟨u, v, split, before, after⟩
      exact ⟨u, (first.recognizes u).mp before, v, (second.recognizes v).mp after, split.symm⟩
    · rintro ⟨u, before, v, after, split⟩
      exact ⟨u, v, split.symm, (first.recognizes u).mpr before, (second.recognizes v).mpr after⟩

theorem faithful_star (factor : f.Faithful s) (room : (f.build thompson s).2.HasRoom 1) :
    (star f).Faithful s := by
  have operand := factor.within
  constructor
  · exact Fragment.within_repetition operand room
  · intro w
    have pieces := Fragment.recognizes_repetition (w := w) operand.wellFormed
      (operand.next_not_mem (Nat.le_refl _))
    simp only [language]
    rw [Language.mem_kstar]
    simp only [← factor.recognizes]
    exact pieces

theorem faithful_letter {c : Char} (symbol : isSymbol c = true)
    (room : s.HasRoom (Pool.primitiveNames c)) : (letter c symbol).Faithful s := by
  constructor
  · exact Fragment.within_primitive room
  · intro w
    have ordinary := ne_emptyMark_of_isSymbol symbol
    have count : Pool.primitiveNames c = 2 := if_neg ordinary
    rw [count] at room
    exact Fragment.recognizes_primitive ordinary (room.mono (Nat.le_succ 1))

theorem faithful_mark (room : s.HasRoom (Pool.primitiveNames emptyMark)) : mark.Faithful s := by
  constructor
  · exact Fragment.within_primitive room
  · intro w
    simp only [language]
    rw [Language.mem_one]
    exact Fragment.recognizes_primitive_mark

/-- By the rules of the grammar, with the names as they are handed out. -/
theorem faithful {rule : Rule} (d : Derivation rule) {s : NameSupply} (room : s.HasRoom d.names) :
    d.Faithful s := by
  induction d generalizing s with
  | last t ih => exact faithful_last (ih room)
  | bar t r iht ihr =>
    obtain ⟨roomLeft, roomRight, roomUnion⟩ := room_bar room
    exact faithful_bar (iht roomLeft) (ihr roomRight) roomUnion
  | nothing => exact faithful_nothing room
  | more t f iht ihf =>
    obtain ⟨roomLeft, roomRight⟩ := room_more room
    exact faithful_more (iht roomLeft) (ihf roomRight)
  | once b ih =>
    have base := ih room
    exact ⟨base.within, base.recognizes⟩
  | star f ih =>
    obtain ⟨roomFactor, roomStar⟩ := room_star room
    exact faithful_star (ih roomFactor) roomStar
  | group r ih =>
    have inner := ih room
    exact ⟨inner.within, inner.recognizes⟩
  | letter c symbol => exact faithful_letter symbol room
  | mark => exact faithful_mark room

theorem symbols_of_mem_language {rule : Rule} (d : Derivation rule) {w : List Char}
    (member : w ∈ d.language) : ∀ c ∈ w, isSymbol c = true := by
  induction d generalizing w with
  | last t ih => exact ih member
  | bar t r iht ihr =>
    rcases (Language.mem_add _ _ _).mp member with left | right
    · exact iht left
    · exact ihr right
  | nothing =>
    rw [(Language.mem_one w).mp member]
    simp
  | more t f iht ihf =>
    obtain ⟨u, left, v, right, rfl⟩ := Language.mem_mul.mp member
    intro c place
    rcases List.mem_append.mp place with first | second
    · exact iht left c first
    · exact ihf right c second
  | once b ih => exact ih member
  | star f ih =>
    obtain ⟨vs, rfl, pieces⟩ := Language.mem_kstar.mp member
    intro c place
    obtain ⟨v, piece, inside⟩ := List.mem_flatten.mp place
    exact ih (pieces v piece) c inside
  | group r ih => exact ih member
  | letter c symbol =>
    have spelled : w = [c] := member
    subst w
    intro x place
    rw [List.mem_singleton.mp place]
    exact symbol
  | mark =>
    rw [(Language.mem_one w).mp member]
    simp

end Derivation

theorem exists_build_of_compile {pattern : String} {limit : Option Nat} {A : Automaton}
    (short : pattern.utf8ByteSize ≤ longestPattern) (success : compile limit pattern = .ok A) :
    ∃ d : Derivation .regex, d.text = pattern.toList ∧ (⟨0⟩ : NameSupply).HasRoom d.names ∧
      (d.build thompson ⟨0⟩).1 = A := by
  obtain ⟨d, spelled, _, built⟩ := Reader.read_eq_ok_iff.mp success
  refine ⟨d, spelled, ?_, built⟩
  apply Derivation.hasRoom_of_short
  rw [spelled, String.utf8Len_toList]
  exact short

/-- Whatever the limit, a pattern that has an automaton has one derivation, and the automaton
    accepts the inputs in its language and no others. So no input is accepted in which another
    character than `a` and `b` occurs. -/
theorem compile_accepts_iff (pattern : String) (limit : Option Nat) (A : Automaton)
    (short : pattern.utf8ByteSize ≤ longestPattern) (success : compile limit pattern = .ok A) :
    ∃ d : Derivation .regex, d.text = pattern.toList ∧
      (∀ other : Derivation .regex, other.text = pattern.toList → other = d) ∧
      (∀ w, A.accepts w = true ↔ w ∈ d.language) ∧
      ∀ w, (∃ c ∈ w, c ≠ 'a' ∧ c ≠ 'b') → A.accepts w = false := by
  obtain ⟨d, spelled, _, built⟩ := Reader.read_eq_ok_iff.mp success
  have room : (⟨0⟩ : NameSupply).HasRoom d.names := by
    apply Derivation.hasRoom_of_short
    rw [spelled, String.utf8Len_toList]
    exact short
  have meaning : ∀ w, A.accepts w = true ↔ w ∈ d.language := by
    intro w
    rw [← (d.faithful room).recognizes w, built]
    exact Automaton.accepts_iff_recognizes
  refine ⟨d, spelled, ?_, meaning, ?_⟩
  · intro other same
    exact other.eq_of_text_eq d (same.trans spelled.symm)
  · intro w ⟨c, place, notA, notB⟩
    apply Bool.eq_false_of_not_eq_true
    intro accepted
    have symbol := d.symbols_of_mem_language ((meaning w).mp accepted) c place
    rcases isSymbol_iff.mp symbol with same | same
    · exact notA same
    · exact notB same

theorem compile_accepts_iff_choice : "(a|b)*a".utf8ByteSize ≤ longestPattern ∧
    ∃ A, compile (some 1) "(a|b)*a" = .ok A ∧
      ∃ d : Derivation .regex, d.text = "(a|b)*a".toList ∧
        (∀ other : Derivation .regex, other.text = "(a|b)*a".toList → other = d) ∧
        (∀ w, A.accepts w = true ↔ w ∈ d.language) ∧
        ∀ w, (∃ c ∈ w, c ≠ 'a' ∧ c ≠ 'b') → A.accepts w = false := by
  have short : "(a|b)*a".utf8ByteSize ≤ longestPattern := by decide
  have success : ∃ A, compile (some 1) "(a|b)*a" = .ok A := ⟨_, rfl⟩
  obtain ⟨A, success⟩ := success
  exact ⟨short, A, success, compile_accepts_iff _ _ A short success⟩

end Thompson
