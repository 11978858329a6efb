import Mathlib.Data.String.Basic
import Thompson.Pattern.Grammar
import Thompson.Proofs.Fragment.Names

/-!
How many names an automaton takes. A derivation says it, and it is never more than three
for each byte and two for the first branch. So no pattern of an ordinary length comes near
the end of the names, and no name is handed out twice.
-/
namespace Thompson

open String (utf8Len)

/-- A term begins with the empty text, and so does an alternation. -/
def Rule.emptyNames : Rule → Nat
  | .regex | .term => 2
  | .factor | .base => 0

/-- A pattern of no more bytes cannot use up the names. -/
def longestPattern : Nat := 1431655764

namespace Derivation

def names {rule : Rule} : Derivation rule → Nat
  | last t => t.names
  | bar t r => t.names + r.names + 1
  | nothing => 2
  | more t f => t.names + f.names
  | once b => b.names
  | star f => f.names + 1
  | group r => r.names
  | letter c _ => Pool.primitiveNames c
  | mark => Pool.primitiveNames emptyMark

theorem names_letter_le (c : Char) : Pool.primitiveNames c ≤ 2 := by
  unfold Pool.primitiveNames
  split
  · omega
  · omega

theorem names_le {rule : Rule} (d : Derivation rule) :
    d.names ≤ 3 * utf8Len d.text + rule.emptyNames := by
  induction d with
  | last t ih => exact ih
  | bar t r iht ihr =>
    have size := Char.utf8Size_pos '|'
    simp only [names, text, Rule.emptyNames, String.utf8Len_append, String.utf8Len_cons] at *
    omega
  | nothing => exact Nat.le_refl 2
  | more t f iht ihf =>
    simp only [names, text, Rule.emptyNames, String.utf8Len_append] at *
    omega
  | once b ih => exact ih
  | star f ih =>
    have size := Char.utf8Size_pos '*'
    simp only [names, text, Rule.emptyNames, String.utf8Len_append, String.utf8Len_cons,
      String.utf8Len_nil] at *
    omega
  | group r ih =>
    have size := Char.utf8Size_pos '('
    simp only [names, text, Rule.emptyNames, String.utf8Len_append, String.utf8Len_cons] at *
    omega
  | letter c symbol =>
    have size := Char.utf8Size_pos c
    have few := names_letter_le c
    simp only [names, text, Rule.emptyNames, String.utf8Len_cons, String.utf8Len_nil]
    omega
  | mark =>
    have size := Char.utf8Size_pos emptyMark
    have few := names_letter_le emptyMark
    simp only [names, text, Rule.emptyNames, String.utf8Len_cons, String.utf8Len_nil]
    omega

/-- The names of a pattern that is short enough are all there at the beginning. -/
theorem hasRoom_of_short {d : Derivation .regex} (short : utf8Len d.text ≤ longestPattern) :
    (⟨0⟩ : NameSupply).HasRoom d.names := by
  have few := d.names_le
  have zero : (0 : UInt32).toNat = 0 := rfl
  simp only [NameSupply.HasRoom, UInt32.size, Rule.emptyNames, longestPattern] at *
  omega

theorem issued_build {rule : Rule} (d : Derivation rule) {s : NameSupply} (room : s.HasRoom d.names) :
    (d.build thompson s).2.issued.toNat = s.issued.toNat + d.names := by
  induction d generalizing s with
  | last t ih => exact ih room
  | bar t r iht ihr =>
    simp only [names, Nat.add_assoc] at room ⊢
    have left := iht (room.mono (Nat.le_add_right _ _))
    have later := room.rest left
    have right := ihr (later.mono (Nat.le_add_right _ _))
    have joined : ((bar t r).build thompson s).2.issued.toNat = _ :=
      Fragment.toNat_issued_union (later.rest right)
    omega
  | nothing => exact Fragment.toNat_issued_empty room
  | more t f iht ihf =>
    simp only [names] at room ⊢
    have left := iht (room.mono (Nat.le_add_right _ _))
    have right := ihf (room.rest left)
    rw [left, Nat.add_assoc] at right
    exact right
  | once b ih => exact ih room
  | star f ih =>
    simp only [names] at room ⊢
    have operand := ih (room.mono (Nat.le_succ _))
    have repeated : ((star f).build thompson s).2.issued.toNat = _ :=
      Fragment.toNat_issued_repetition (room.rest operand)
    omega
  | group r ih => exact ih room
  | letter c symbol => exact Pool.issued_primitive c room
  | mark => exact Pool.issued_primitive emptyMark room

section Room

variable {s : NameSupply} {t : Derivation .term} {r : Derivation .regex}
  {f : Derivation .factor}

-- the names that a derivation takes last for each of its parts, at the supply where it begins

theorem room_bar (room : s.HasRoom (bar t r).names) :
    s.HasRoom t.names ∧ (t.build thompson s).2.HasRoom r.names ∧
      (r.build thompson (t.build thompson s).2).2.HasRoom 1 := by
  simp only [names, Nat.add_assoc] at room
  have left := room.mono (Nat.le_add_right _ _)
  have later := room.rest (t.issued_build left)
  have right := later.mono (Nat.le_add_right _ _)
  exact ⟨left, right, later.rest (r.issued_build right)⟩

theorem room_more (room : s.HasRoom (more t f).names) :
    s.HasRoom t.names ∧ (t.build thompson s).2.HasRoom f.names := by
  simp only [names] at room
  have left := room.mono (Nat.le_add_right _ _)
  exact ⟨left, room.rest (t.issued_build left)⟩

theorem room_star (room : s.HasRoom (star f).names) :
    s.HasRoom f.names ∧ (f.build thompson s).2.HasRoom 1 := by
  simp only [names] at room
  have operand := room.mono (Nat.le_succ _)
  exact ⟨operand, room.rest (f.issued_build operand)⟩

end Room

end Derivation

end Thompson
