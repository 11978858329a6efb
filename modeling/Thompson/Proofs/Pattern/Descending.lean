import Thompson.Proofs.Pattern.Following

/-!
The right-recursive descent comes to what the rules come to that tell a tracer. Rule by rule they
differ in one thing: the rules gather the branches of an alternation and join them at its end, while
the descent joins each branch to the alternation of the rest. Both begin with the last two branches,
so what the rules make of finished branches is those joined to what the descent comes to. The rules
in turn come to what the reader comes to, which goes through the text once from left to right.
-/
namespace Thompson

variable {σ α β τ : Type} {K : Construction σ α β} {T : Tracer τ β} {limit : Option Nat}

namespace Rules

open Descent (Parsed)

variable {k : Cursor} {depth bound : Nat} {s : σ} {t : τ}

theorem around_outcome (rule : Rule) (offset : Nat)
    (body : τ → Except PatternError (Parsed σ α bound) × τ) :
    (around K T rule offset t body).1 = (body (T t (.enter rule offset))).1 := by
  unfold around
  rcases body (T t (.enter rule offset)) with ⟨e | p, t'⟩
  · rfl
  · rfl

theorem stars_outcome (p : Parsed σ α bound) (t : τ) : (stars K T p t).1 =
    (Descent.stars K p.place.offset p.supply p.value p.place.rest).weaken p.fewer := by
  fun_induction stars K T p t with
  | case1 p t rest starred repeated s' made ih =>
    obtain ⟨value, s, ⟨offset, text⟩, fewer⟩ := p
    obtain rfl : text = '*' :: rest := starred
    rw [ih, Descent.stars]
    simp only [made]
    rfl
  | case2 p t noStar =>
    obtain ⟨value, s, ⟨offset, text⟩, fewer⟩ := p
    have stays : Descent.stars K offset s value text =
        ⟨value, s, ⟨offset, text⟩, Nat.lt_succ_self _⟩ := by
      unfold Descent.stars
      split
      · exact absurd rfl (noStar _)
      · rfl
    rw [stays]
    rfl

/-- The two come to the same from every place with less ahead. -/
def RegexSame (K : Construction σ α β) (T : Tracer τ β) (limit : Option Nat) (k : Cursor) : Prop :=
  ∀ depth s t, (regex K T limit depth k s t).1 = Descent.regex K limit depth k s

theorem factor_outcome_of_open {offset : Nat} {rest : List Char}
    (inner : RegexSame K T limit ⟨offset + '('.utf8Size, rest⟩) (depth : Nat) (s : σ) (t : τ) :
    (factor K T limit depth ⟨offset, '(' :: rest⟩ s t).1 =
      Descent.factor K limit depth ⟨offset, '(' :: rest⟩ s := by
  rw [factor, around_outcome, Descent.factor]
  cases deep : Reader.depthError? limit depth offset with
  | some e =>
    rw [base_of_tooDeep deep]
    rfl
  | none =>
    by_cases ends : rest = []
    · subst rest
      rw [base_of_end deep]
      rfl
    · have same := inner (depth + 1) s (T (T t (.enter .factor offset)) (.enter .base offset))
      simp only [if_neg ends, ← same]
      rcases parsed : regex K T limit (depth + 1) ⟨offset + '('.utf8Size, rest⟩ s
        (T (T t (.enter .factor offset)) (.enter .base offset)) with ⟨e | r, t'⟩
      · rw [base_of_error deep ends parsed]
      · by_cases closed : ∃ behind, r.place.rest = ')' :: behind
        · obtain ⟨behind, closed⟩ := closed
          obtain ⟨_, parsed⟩ := base_of_closed deep ends parsed closed
          rw [parsed]
          simp only [stars_outcome]
          split
          · rename_i same
            obtain ⟨_, rfl⟩ := List.cons.inj (closed.symm.trans same)
            rfl
          · rename_i unclosed
            exact absurd closed (unclosed behind)
        · have noClose := not_exists.mp closed
          rw [base_of_unclosed deep ends parsed noClose]
          simp only

theorem factor_outcome (inner : ∀ behind : Cursor, behind.rest.length < k.rest.length →
    RegexSame K T limit behind) (depth : Nat) (s : σ) (t : τ) :
    (factor K T limit depth k s t).1 = Descent.factor K limit depth k s := by
  obtain ⟨offset, text⟩ := k
  cases text with
  | nil =>
    rw [factor, around_outcome, Descent.factor, base]
    rfl
  | cons c rest =>
    by_cases opening : c = '('
    · subst c
      exact factor_outcome_of_open (inner _ (Nat.lt_succ_self _)) depth s t
    · rw [factor, around_outcome, Descent.factor]
      by_cases letter : Reader.IsLiteral c
      · rw [base_of_literal letter]
        simp only [stars_outcome]
        rcases Reader.isLiteral_iff.mp letter with rfl | rfl | rfl
        · rfl
        · rfl
        · rfl
      · rw [base_of_misplaced opening letter]
        unfold Reader.IsLiteral at letter
        simp only [letter]
        rfl

def FactorsSame (K : Construction σ α β) (T : Tracer τ β) (limit : Option Nat) (k : Cursor) : Prop :=
  ∀ depth value s t, (factors K T limit depth value k s t).1 = Descent.factors K limit depth value k s

theorem factors_outcome (inner : ∀ behind : Cursor, behind.rest.length < k.rest.length →
      RegexSame K T limit behind)
    (later : ∀ behind : Cursor, behind.rest.length < k.rest.length → FactorsSame K T limit behind) :
    FactorsSame K T limit k := by
  intro depth value s t
  rw [factors, Descent.factors]
  split
  · rfl
  · rw [← factor_outcome inner depth s t]
    rcases factor K T limit depth k s t with ⟨e | f, t'⟩
    · rfl
    · have rest := later f.place f.fewer depth (K.concatenate value f.value) f.supply
        (T t' (.build .concatenate (K.describe (K.concatenate value f.value))))
      simp only [← rest]
      rcases factors K T limit depth (K.concatenate value f.value) f.place f.supply
        (T t' (.build .concatenate (K.describe (K.concatenate value f.value)))) with ⟨e | r, t''⟩
      · rfl
      · rfl

theorem term_outcome (factors : FactorsSame K T limit k) (depth : Nat) (s : σ) (t : τ) :
    (term K T limit depth k s t).1 = Descent.term K limit depth k s := by
  rw [term, around_outcome, Descent.term]
  exact factors depth _ _ _

def joined (K : Construction σ α β) (done : List α) (p : Parsed σ α bound) : Parsed σ α bound :=
  { p with
    value := (join K (fun _ _ => ()) p.supply () done p.value).1
    supply := (join K (fun _ _ => ()) p.supply () done p.value).2.1 }

theorem join_outcome (s : σ) (t : τ) (done : List α) (value : α) :
    (join K T s t done value).1 = (join K (fun _ _ => ()) s () done value).1 ∧
      (join K T s t done value).2.1 = (join K (fun _ _ => ()) s () done value).2.1 := by
  rw [join_eq 0, join_eq 0]
  exact ⟨rfl, rfl⟩

def BranchesSame (K : Construction σ α β) (T : Tracer τ β) (limit : Option Nat) (k : Cursor) : Prop :=
  ∀ depth done s t, (branches K T limit depth done k s t).1 =
    (Descent.regex K limit depth k s).map (joined K done)

theorem branches_outcome (factors : FactorsSame K T limit k)
    (later : ∀ behind : Cursor, behind.rest.length < k.rest.length → BranchesSame K T limit behind) :
    BranchesSame K T limit k := by
  intro depth done s t
  rw [branches, Descent.regex, ← term_outcome factors depth s t]
  rcases term K T limit depth k s t with ⟨e | ⟨value, s', ⟨offset, text⟩, fewer⟩, t'⟩
  · rfl
  · by_cases bar : ∃ behind, text = '|' :: behind
    · obtain ⟨behind, rfl⟩ := bar
      have rest := later ⟨offset + '|'.utf8Size, behind⟩ (Nat.lt_of_succ_lt_succ fewer) depth
        (K.stamp value :: done) s' t'
      simp only
      generalize branches K T limit depth (K.stamp value :: done) ⟨offset + '|'.utf8Size, behind⟩
        s' t' = result at rest ⊢
      cases regexed : Descent.regex K limit depth ⟨offset + '|'.utf8Size, behind⟩ s' with
      | error d =>
        rw [regexed] at rest
        rcases result with ⟨e | r, t''⟩
        · cases rest
          rfl
        · contradiction
      | ok q =>
        rw [regexed] at rest
        rcases result with ⟨e | r, t''⟩
        · contradiction
        · cases rest
          rfl
    · have noBar := not_exists.mp bar
      obtain ⟨value', supply'⟩ := join_outcome (K := K) (T := T) s' t' done (K.stamp value)
      simp only [value', supply']
      rfl

theorem regex_outcome (branches : BranchesSame K T limit k) : RegexSame K T limit k := by
  intro depth s t
  rw [regex, around_outcome]
  refine (branches depth [] s _).trans ?_
  cases Descent.regex K limit depth k s with
  | error e => rfl
  | ok p => rfl

variable (K T limit) in
theorem same_outcomes (k : Cursor) :
    FactorsSame K T limit k ∧ BranchesSame K T limit k ∧ RegexSame K T limit k := by
  -- each rule is called with less of the text ahead, or is one of those before it here
  induction ahead : k.rest.length using Nat.strongRecOn generalizing k with
  | ind n ih =>
    subst ahead
    have factors := factors_outcome (fun behind fewer => (ih _ fewer behind rfl).2.2)
      fun behind fewer => (ih _ fewer behind rfl).1
    have branches := branches_outcome factors fun behind fewer => (ih _ fewer behind rfl).2.1
    exact ⟨factors, branches, regex_outcome branches⟩

/-- Whoever is told of it, the rules come to what the descent comes to. -/
theorem read_outcome (s : σ) (t : τ) (text : List Char) :
    (read K T limit s t text).1 = Descent.read K limit s text := by
  have same := (same_outcomes K T limit (.ofText text)).2.2 0 s t
  rw [read, Descent.read, ← same]
  rcases regex K T limit 0 (.ofText text) s t with ⟨e | r, t'⟩
  · rfl
  · simp only
    rcases r.place.rest with _ | ⟨c, behind⟩
    · rfl
    · rfl

end Rules

/-- To read a pattern from left to right is to follow the rules of the grammar, each of which
    calls the others. -/
theorem compile_eq_right_recursive_descent (limit : Option Nat) (pattern : String) :
    compile limit pattern = Descent.read thompson limit ⟨0⟩ pattern.toList := by
  have told := congrArg Prod.fst (compileFor_eq .silent limit pattern ())
  rw [← Rules.read_outcome]
  exact told.symm

end Thompson
