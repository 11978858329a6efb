import Thompson.Proofs.Pattern.Failure
import Thompson.Proofs.Pattern.Parentheses

/-!
A limit on the nesting of groups. It is met first at the first opening parenthesis with so
many others open. If reading comes that far, it fails there; if there is no such place, or
something else is wrong before it, the limit makes no difference. So with a limit the patterns
are those with a derivation that is no deeper.
-/
namespace Thompson

open String (utf8Len)

namespace Reader

variable {σ α β : Type} {K : Construction σ α β} {limit : Option Nat} {s : σ} {n : Nat}
  {cfg : Config σ α} {c : Char} {text : List Char} {e : PatternError}

theorem act_limit {offset : Nat} {groups : List (Group α)} {here : Branches α} (other : c ≠ '(') :
    act K limit offset s groups here c = act K none offset s groups here c := by
  unfold act
  split
  · rfl
  · rfl
  · rw [if_neg other, if_neg other]

theorem step_limit (shallow : c = '(' → ∀ n ∈ limit, cfg.groups.length < n) :
    (step K limit cfg c).2 = (step K none cfg c).2 := by
  by_cases opening : c = '('
  · subst c
    rw [step_open K (shallow rfl), step_open K (by intro n limited; contradiction)]
  · rcases repeats_or_not cfg c with ⟨rfl, here, value, focus⟩ | noStar
    · obtain ⟨offset, s, groups, _⟩ := cfg
      cases focus
      rfl
    · rw [step_eq_act noStar, step_eq_act noStar, act_limit opening]

theorem after_limit (shallow : ∀ before behind last, text = before ++ '(' :: behind →
      after K none cfg before = .ok last → ∀ n ∈ limit, last.groups.length < n) :
    after K limit cfg text = after K none cfg text := by
  induction text generalizing cfg with
  | nil => rfl
  | cons c text ih =>
    have one : (step K limit cfg c).2 = (step K none cfg c).2 := by
      apply step_limit
      intro opening
      exact shallow [] text cfg (by rw [opening]; rfl) after_nil
    cases free : (step K none cfg c).2 with
    | error e => rw [after_cons_of_error free, after_cons_of_error (one.trans free)]
    | ok next =>
      rw [after_cons_of_ok free, after_cons_of_ok (one.trans free)]
      apply ih
      intro before behind last same leads
      refine shallow (c :: before) behind last (by rw [same]; rfl) ?_
      rw [after_cons_of_ok free, leads]

theorem after_of_not_deep (shallow : ∀ offset, ¬DeepAt n text offset) :
    after K (some n) (origin K s) text = after K none (origin K s) text := by
  apply after_limit
  intro before behind last same leads m limited
  cases limited
  have opened := (behind_of_after leads).trail.count_open
  by_contra deep
  exact shallow _ ⟨before, behind, same, rfl, by omega⟩

theorem outcome_of_after_eq
    (same : after K limit (origin K s) text = after K none (origin K s) text) :
    (read K limit s text).outcome = (read K none s text).outcome := by
  cases leads : after K none (origin K s) text with
  | error e => rw [outcome_of_error leads, outcome_of_error (same.trans leads)]
  | ok last => rw [outcome_of_ok leads, outcome_of_ok (same.trans leads)]

theorem offset_of_after_error (stopped : after K limit (origin K s) text = .error e) :
    e.offset < utf8Len text := by
  obtain ⟨before, c, behind, last, rfl, leads, one⟩ := after_error_split stopped
  have size := Char.utf8Size_pos c
  rw [offset_of_stop one, (behind_of_after leads).offset, String.utf8Len_append,
    String.utf8Len_cons]
  omega

theorem read_tooDeep {offset : Nat} (first : FirstDeep n text offset)
    (sooner : ∀ e, (read K none s text).outcome = .error e → offset ≤ e.offset) :
    (read K (some n) s text).outcome = .error (.tooDeep n offset) := by
  obtain ⟨before, behind, rfl, rfl, nested⟩ := first.here
  -- up to the place both readings are the same, so its depth is that of the free one
  have free := @after_of_not_deep σ α β K s n before first.not_before
  cases leads : after K none (origin K s) before with
  | error e =>
    have early := sooner e (outcome_of_error (after_append_of_error leads))
    have inside := offset_of_after_error leads
    omega
  | ok last =>
    have place := behind_of_after leads
    have deep : n ≤ last.groups.length := by
      have := place.trail.count_open
      omega
    apply outcome_of_error
    rw [after_append_of_ok (free.trans leads), after_cons_of_error (step_open_tooDeep deep),
      place.offset]

/-- Otherwise the limit makes no difference. -/
theorem read_limit (untouched : ∀ offset, FirstDeep n text offset →
      ∃ e, (read K none s text).outcome = .error e ∧ e.offset < offset) :
    (read K (some n) s text).outcome = (read K none s text).outcome := by
  by_cases somewhere : ∃ offset, DeepAt n text offset
  · obtain ⟨_, found⟩ := somewhere
    obtain ⟨offset, first⟩ := found.exists_first
    obtain ⟨e, failed, early⟩ := untouched offset first
    obtain ⟨before, behind, rfl, rfl, _⟩ := first.here
    have free := @after_of_not_deep σ α β K s n before first.not_before
    cases leads : after K none (origin K s) before with
    | error d =>
      rw [outcome_of_error (after_append_of_error leads),
        outcome_of_error (after_append_of_error (free.trans leads))]
    | ok last =>
      have late := le_offset_of_outcome leads failed
      omega
  · apply outcome_of_after_eq
    apply after_of_not_deep
    intro offset deep
    exact somewhere ⟨offset, deep⟩

theorem read_of_not_tooDeep
    (fine : ∀ offset, (read K (some n) s text).outcome ≠ .error (.tooDeep n offset))
    (larger : Allows limit n) : (read K limit s text).outcome = (read K none s text).outcome := by
  have untouched : ∀ offset, FirstDeep n text offset →
      ∃ e, (read K none s text).outcome = .error e ∧ e.offset < offset := by
    intro offset first
    by_contra late
    refine fine offset (read_tooDeep first ?_)
    intro e failed
    by_contra early
    exact late ⟨e, failed, by omega⟩
  cases limit with
  | none => rfl
  | some m =>
    -- where the larger limit is met first, the smaller one is met already
    apply read_limit
    intro offset first
    obtain ⟨nearer, found⟩ := (first.here.mono (larger m rfl)).exists_first
    obtain ⟨e, failed, early⟩ := untouched nearer found
    have order := found.least offset (first.here.mono (larger m rfl))
    exact ⟨e, failed, by omega⟩

/-- What is read with success is what a derivation builds that the limit allows. -/
theorem read_eq_ok_iff {value : α} :
    (read K limit s text).outcome = .ok value ↔
      ∃ d : Derivation .regex, d.text = text ∧ Allows limit d.depth ∧ (d.build K s).1 = value := by
  constructor
  · intro success
    obtain ⟨d, rfl⟩ := derivable_of_read success
    have allowed : Allows limit d.depth := by
      intro n limited
      obtain rfl := Option.mem_def.mp limited
      by_contra deep
      obtain ⟨_, found⟩ := d.exists_deepAt (Nat.lt_of_not_le deep)
      obtain ⟨offset, first⟩ := found.exists_first
      have whole := read_derivation K s d (.unlimited d.depth)
      rw [read_tooDeep first (by intro e failed; rw [whole] at failed; contradiction)] at success
      contradiction
    have built := read_derivation K s d allowed
    rw [success] at built
    exact ⟨d, rfl, allowed, (Except.ok.inj built).symm⟩
  · intro ⟨d, spelled, allowed, built⟩
    subst text
    subst value
    exact read_derivation K s d allowed

end Reader

/-- A limit is met exactly at the first place so deep, unless reading fails before it, and
    changes nothing else. So a larger limit changes nothing that was not too deep, and neither
    patterns side by side nor branches take more of it than each of them alone. -/
theorem compile_limit_exact (pattern : String) (n : Nat) :
    (∀ offset, FirstDeep n pattern.toList offset →
      (∀ e, compile none pattern = .error e → offset ≤ e.offset) →
      compile (some n) pattern = .error (.tooDeep n offset)) ∧
    ((∀ offset, FirstDeep n pattern.toList offset →
      ∃ e, compile none pattern = .error e ∧ e.offset < offset) →
      compile (some n) pattern = compile none pattern) ∧
    ((∀ offset, compile (some n) pattern ≠ .error (.tooDeep n offset)) →
      ∀ larger, Reader.Allows larger n → compile larger pattern = compile (some n) pattern) ∧
    (∀ other A B, compile (some n) pattern = .ok A → compile (some n) other = .ok B →
      (∃ C, compile (some n) (pattern ++ other) = .ok C) ∧
      ∃ C, compile (some n) (pattern ++ "|" ++ other) = .ok C) := by
  refine ⟨?_, Reader.read_limit, ?_, ?_⟩
  · intro offset first sooner
    exact Reader.read_tooDeep first sooner
  · intro fine larger allowed
    have same : Reader.Allows (some n) n := by
      intro m limited
      cases limited
      exact Nat.le_refl n
    have raised := Reader.read_of_not_tooDeep fine allowed
    have kept := Reader.read_of_not_tooDeep fine same
    exact raised.trans kept.symm
  · intro other A B first second
    obtain ⟨r, left, allowsLeft, _⟩ := Reader.read_eq_ok_iff.mp first
    obtain ⟨q, right, allowsRight, _⟩ := Reader.read_eq_ok_iff.mp second
    have both : Reader.Allows (some n) (max r.depth q.depth) := by
      intro m limited
      have := allowsLeft m limited
      have := allowsRight m limited
      omega
    constructor
    · refine ⟨_, Reader.read_eq_ok_iff.mpr ⟨r.append q, ?_, ?_, rfl⟩⟩
      · rw [Derivation.text_append, left, right, String.toList_append]
      · rwa [Derivation.depth_append]
    · refine ⟨_, Reader.read_eq_ok_iff.mpr ⟨r.alternate q, ?_, ?_, rfl⟩⟩
      · rw [Derivation.text_alternate, left, right, String.toList_append, String.toList_append,
          List.append_assoc]
        rfl
      · rwa [Derivation.depth_alternate]

/-- Of two groups inside each other the second one is too deep for one level, although both
    of them lack their closing parenthesis. -/
theorem compile_limit_nested : FirstDeep 1 "((a".toList 1 ∧
    (∀ e, compile none "((a" = .error e → 1 ≤ e.offset) ∧
    compile (some 1) "((a" = .error (.tooDeep 1 1) := by
  have first : FirstDeep 1 "((a".toList 1 := by
    refine ⟨⟨['('], ['a'], rfl, rfl, by decide⟩, ?_⟩
    intro other ⟨before, behind, _, place, deep⟩
    cases before with
    | nil => contradiction
    | cons c before =>
      have size := Char.utf8Size_pos c
      rw [String.utf8Len_cons] at place
      omega
  have free : compile none "((a" = .error (.unterminatedGroup 1 3) := by rfl
  have sooner : ∀ e, compile none "((a" = .error e → 1 ≤ e.offset := by
    intro e failed
    rw [free] at failed
    cases failed
    decide
  exact ⟨first, sooner, (compile_limit_exact "((a" 1).1 1 first sooner⟩

end Thompson
