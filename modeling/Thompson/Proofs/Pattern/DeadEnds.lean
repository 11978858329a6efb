import Thompson.Proofs.Automaton.Subsets
import Thompson.Proofs.Fragment.Trim
import Thompson.Proofs.Pattern.Correctness

/-!
Automata of patterns have no dead ends. Every state of theirs lies on a way from the start to a
final state, because the constructions keep that along a derivation. So if a state is left behind
a text, the text is the beginning of one that is accepted; and a run stops before the end of its
input exactly where nothing that may follow could be accepted any more.
-/
namespace Thompson

namespace Automaton

variable {A : Automaton} {w : List Char}

def Hopeless (A : Automaton) (w : List Char) : Prop := ∀ v, A.accepts (w ++ v) = false

theorem Trim.exists_reached_iff (trim : A.Trim) :
    (∃ q, q ∈ A.reached w) ↔ ∃ v, A.accepts (w ++ v) = true := by
  constructor
  · intro ⟨q, hq⟩
    have before := mem_reached.mp hq
    have inside : q ∈ A.states := before.stays (fun e he _ => trim.wellFormed.target_mem e he)
      trim.wellFormed.start_mem
    obtain ⟨f, final, v, behind⟩ := trim.productive q inside
    exact ⟨v, accepts_iff_recognizes.mpr ⟨f, final, before.append behind⟩⟩
  · intro ⟨v, accepted⟩
    exact exists_reached_of_accepts accepted

theorem Trim.exhausted_iff_hopeless (trim : A.Trim) :
    A.Exhausted A.initial w ↔ A.Hopeless w := by
  rw [exhausted_iff, trim.exists_reached_iff]
  simp [Hopeless]

theorem Trim.ending_eq_stopped_iff (trim : A.Trim) {rest : List Char} :
    A.ending w = .stopped rest ↔ ∃ u, w = u ++ rest ∧ Earliest A.Hopeless u := by
  have same : A.Exhausted A.initial = A.Hopeless :=
    funext fun x => propext trim.exhausted_iff_hopeless
  rw [Automaton.ending_eq_stopped_iff, same]

end Automaton

namespace Derivation

theorem trim {rule : Rule} (d : Derivation rule) {s : NameSupply} (room : s.HasRoom d.names) :
    (d.build thompson s).1.Trim := by
  induction d generalizing s with
  | last t ih => exact (ih room).addSymbols inputSymbols
  | bar t r iht ihr =>
    obtain ⟨roomLeft, roomRight, _⟩ := room_bar room
    have left := (t.faithful roomLeft).within
    have right := (r.faithful roomRight).within
    exact Fragment.trim_union ((iht roomLeft).addSymbols inputSymbols) (ihr roomRight)
      (left.next_not_mem (Nat.le_of_lt right.lt)) (right.next_not_mem (Nat.le_refl _))
  | nothing => exact Fragment.trim_empty (room.mono (Nat.le_succ 1))
  | more t f iht ihf =>
    obtain ⟨roomLeft, roomRight⟩ := room_more room
    have left := (t.faithful roomLeft).within
    have right := (f.faithful roomRight).within
    exact Fragment.trim_concatenate (iht roomLeft) (ihf roomRight) (left.disjoint right)
  | once b ih => exact ih room
  | star f ih =>
    obtain ⟨roomFactor, _⟩ := room_star room
    have operand := (f.faithful roomFactor).within
    exact Fragment.trim_repetition (ih roomFactor) (operand.next_not_mem (Nat.le_refl _))
  | group r ih => exact ih room
  | letter c symbol => exact Fragment.trim_primitive room
  | mark => exact Fragment.trim_primitive room

end Derivation

/-- As long as a state is left, an accepted text can still come of what was read; and the run over
    an input stops behind the first prefix of it for which that is not so. -/
theorem compile_no_dead_ends (pattern : String) (limit : Option Nat) (A : Automaton)
    (short : pattern.utf8ByteSize ≤ longestPattern) (success : compile limit pattern = .ok A) :
    (∃ w, A.accepts w = true) ∧
    (∀ w, (∃ q, q ∈ w.foldl A.step (A.closure [A.start])) ↔ ∃ v, A.accepts (w ++ v) = true) ∧
    (∀ w, A.accepts w = A.verdict (A.ending w)) ∧
    ∀ w rest, A.ending w = .stopped rest ↔ ∃ u, w = u ++ rest ∧ Earliest A.Hopeless u := by
  obtain ⟨d, _, room, built⟩ := exists_build_of_compile short success
  have trim : A.Trim := built ▸ d.trim room
  refine ⟨?_, ?_, A.acceptsFrom_eq_verdict A.initial, ?_⟩
  · have start : A.start ∈ A.reached [] := A.start_mem_initial
    exact trim.exists_reached_iff.mp ⟨A.start, start⟩
  · intro w
    exact trim.exists_reached_iff
  · intro w rest
    exact trim.ending_eq_stopped_iff

/-- The run over `abaab` does not read its last character, as no accepted text begins with `abaa`;
    up to there it might still have ended well. -/
theorem compile_no_dead_ends_behind_match : "ab*a".utf8ByteSize ≤ longestPattern ∧
    ∃ A, compile (some 0) "ab*a" = .ok A ∧ A.ending "abaab".toList = .stopped ['b'] ∧
      Earliest A.Hopeless "abaa".toList ∧ A.accepts "aba".toList = true := by
  have short : "ab*a".utf8ByteSize ≤ longestPattern := by decide
  have success : ∃ A, compile (some 0) "ab*a" = .ok A ∧
      A.ending "abaab".toList = .stopped ['b'] ∧ A.accepts "aba".toList = true :=
    ⟨_, rfl, by decide +kernel, by decide +kernel⟩
  obtain ⟨A, success, stopped, accepted⟩ := success
  obtain ⟨_, _, _, stops⟩ := compile_no_dead_ends _ _ A short success
  obtain ⟨u, split, earliest⟩ := (stops _ _).mp stopped
  have read : "abaa".toList ++ ['b'] = u ++ ['b'] := split
  rw [List.append_cancel_right read]
  exact ⟨short, A, success, stopped, earliest, accepted⟩

end Thompson
