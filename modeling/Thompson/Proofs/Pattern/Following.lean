import Thompson.Pattern.Rules
import Thompson.Proofs.Pattern.Calls

/-!
The reader logs what the rules tell. Where a rule begins, what a tracer comes to while the reader
goes through the rest of the text is what it comes to from a place behind the rule, with what the
rule has told it. The reader is late in one thing: it leaves a factor only when it looks at what
comes next. If a rule fails, all rules that are active fail, which the reader logs at once.
-/
namespace Thompson

variable {σ α β τ : Type} {K : Construction σ α β} {T : Tracer τ β} {limit : Option Nat}

namespace Reader

variable {cfg next : Config σ α} {c : Char} {e : PatternError} {log : List (Entry σ β)}

variable (K T limit) in
/-- What comes of a text that is read from a place on, and of a tracer meanwhile. -/
def tracedFrom (cfg : Config σ α) (t : τ) : List Char → Except PatternError α × τ
  | [] => ((finish K cfg).outcome, T.tellAll t (finish K cfg).log)
  | c :: text =>
    match step K limit cfg c with
    | (log, .error e) => (.error e, T.tellAll t log)
    | (log, .ok next) => tracedFrom next (T.tellAll t log) text

theorem tracedFrom_eq (cfg : Config σ α) (t : τ) (text : List Char) :
    tracedFrom K T limit cfg t text =
      match advance K limit cfg text with
      | (log, .error e) => (.error e, T.tellAll t log)
      | (log, .ok last) => ((finish K last).outcome, T.tellAll t (log ++ (finish K last).log)) := by
  induction text generalizing cfg t with
  | nil => rfl
  | cons c text ih =>
    rw [tracedFrom, advance]
    rcases step K limit cfg c with ⟨log, e | next⟩
    · rfl
    · simp only [ih]
      rcases advance K limit next text with ⟨more, e | last⟩
      · simp only [T.tellAll_append]
      · simp only [T.tellAll_append]

theorem tracedFrom_start (s : σ) (t : τ) (text : List Char) :
    tracedFrom K T limit (start K s).2 (T.tellAll t (start K s).1) text =
      ((read K limit s text).outcome, T.tellAll t (read K limit s text).log) := by
  unfold read
  rcases start K s with ⟨begun, cfg⟩
  simp only [tracedFrom_eq]
  rcases advance K limit cfg text with ⟨log, e | last⟩
  · simp only [T.tellAll_append]
  · simp only [T.tellAll_append]

theorem tellAll_unwind (t : τ) (levels : Nat) (e : PatternError) (offset : Nat) (s : σ) :
    T.tellAll t (unwind levels e offset s) = T.failAll t (rulesAround levels) e := by
  rw [Tracer.tellAll, unwind, List.foldl_map]
  rfl

variable (K) in
def closing (cfg : Config σ α) : List (Entry σ β) × α × σ :=
  let (log, here, s) := settle K cfg.offset cfg.supply cfg.focus
  let (more, whole, s') := close K cfg.offset s here
  (log ++ more, whole, s')

theorem finish_closed (focus : cfg.focus ≠ .opened) (groups : cfg.groups = []) :
    finish K cfg = ⟨(closing K cfg).1, .ok (closing K cfg).2.1⟩ := by
  unfold finish closing
  split
  · contradiction
  · simp only [groups]

theorem finish_unclosed {group : Group α} {outer : List (Group α)} (focus : cfg.focus ≠ .opened)
    (groups : cfg.groups = group :: outer) :
    finish K cfg = ⟨(closing K cfg).1 ++ unwind cfg.groups.length
      (.unterminatedGroup group.opened cfg.offset) cfg.offset (closing K cfg).2.2,
      .error (.unterminatedGroup group.opened cfg.offset)⟩ := by
  unfold finish closing
  split
  · contradiction
  · simp only [groups]

end Reader

namespace Descent

def TermEnds (k : Cursor) : Prop :=
  k.rest.head? = none ∨ k.nextIs '|' = true ∨ k.nextIs ')' = true

theorem termEnds_iff {k : Cursor} : TermEnds k ↔
    k.rest = [] ∨ (∃ behind, k.rest = '|' :: behind) ∨ ∃ behind, k.rest = ')' :: behind := by
  simp [TermEnds, Cursor.nextIs, List.head?_eq_some_iff]

end Descent

namespace Rules

open Descent (Parsed TermEnds termEnds_iff)
open Reader (tracedFrom)

variable {cfg : Config σ α} {k : Cursor} {here : Branches α} {s : σ} {t t₀ : τ} {bound : Nat}

variable (K T) in
/-- The reader stands where the rules stand. Its alternation has come to `here`, and when it is
    told what the reader still owes, its tracer comes to `t`. -/
structure At (cfg : Config σ α) (t₀ : τ) (k : Cursor) (here : Branches α) (s : σ) (t : τ) :
    Prop where
  offset : cfg.offset = k.offset
  settled : (Reader.settle K cfg.offset cfg.supply cfg.focus).2 = (here, s)
  told : T.tellAll t₀ (Reader.settle K cfg.offset cfg.supply cfg.focus).1 = t
  noStar : k.rest.head? = some '*' → ∀ here value, cfg.focus ≠ .factor here value
  begun : k.rest = [] → cfg.focus ≠ .opened

variable (K T limit) in
/-- The reader fails as the rule does and lets the rules around it fail, or goes on from a
    place behind the rule. -/
def Follows (cfg : Config σ α) (t₀ : τ) (k : Cursor) (active : List Rule)
    (result : Except PatternError (Parsed σ α bound) × τ)
    (reach : Parsed σ α bound → τ → Config σ α → τ → Prop) : Prop :=
  match result with
  | (.error e, t) => tracedFrom K T limit cfg t₀ k.rest = (.error e, T.failAll t active e)
  | (.ok p, t) => ∃ next t₁, reach p t next t₁ ∧
      tracedFrom K T limit cfg t₀ k.rest = tracedFrom K T limit next t₁ p.place.rest

theorem Follows.moved {k' : Cursor} {next : Config σ α} {t₁ : τ} {active : List Rule}
    {result : Except PatternError (Parsed σ α bound) × τ}
    {reach : Parsed σ α bound → τ → Config σ α → τ → Prop}
    (same : tracedFrom K T limit cfg t₀ k.rest = tracedFrom K T limit next t₁ k'.rest)
    (rest : Follows K T limit next t₁ k' active result reach) :
    Follows K T limit cfg t₀ k active result reach := by
  rcases result with ⟨e | p, t⟩
  · exact same.trans rest
  · obtain ⟨last, t₂, reached, leads⟩ := rest
    exact ⟨last, t₂, reached, same.trans leads⟩

theorem Follows.imp {active : List Rule} {result : Except PatternError (Parsed σ α bound) × τ}
    {reach reach' : Parsed σ α bound → τ → Config σ α → τ → Prop}
    (weaker : ∀ p t next t₁, reach p t next t₁ → reach' p t next t₁)
    (follows : Follows K T limit cfg t₀ k active result reach) :
    Follows K T limit cfg t₀ k active result reach' := by
  rcases result with ⟨e | p, t⟩
  · exact follows
  · obtain ⟨next, t₁, reached, leads⟩ := follows
    exact ⟨next, t₁, weaker p t next t₁ reached, leads⟩

theorem Follows.around {rule : Rule} {offset : Nat} {active : List Rule}
    {body : τ → Except PatternError (Parsed σ α bound) × τ}
    {reach : Parsed σ α bound → τ → Config σ α → τ → Prop}
    (inner : Follows K T limit cfg t₀ k (rule :: active) (body (T t (.enter rule offset)))
      fun p t => reach p (T t (.leave rule (K.describe p.value)))) :
    Follows K T limit cfg t₀ k active (around K T rule offset t body) reach := by
  unfold Rules.around
  generalize body (T t (.enter rule offset)) = result at inner ⊢
  rcases result with ⟨e | p, t'⟩
  · exact inner
  · exact inner

theorem join_eq (offset : Nat) (done : List α) (value : α) :
    join K T s t done value =
      ((Reader.unite K offset s done value).2.1, (Reader.unite K offset s done value).2.2,
        T.tellAll t (Reader.unite K offset s done value).1) := by
  induction done generalizing s t value with
  | nil => rfl
  | cons branch done ih => exact ih _

section Places

variable {offset : Nat} {c : Char} {rest : List Char} {log : List (Entry σ β)}
  (place : At K T cfg t₀ ⟨offset, c :: rest⟩ here s t)
include place

theorem At.step {outcome : Except PatternError (Config σ α)}
    (acts : Reader.act K limit offset s cfg.groups here c = (log, outcome)) :
    Reader.step K limit cfg c =
      ((Reader.settle K cfg.offset cfg.supply cfg.focus).1 ++ log, outcome) := by
  have settles : Reader.settle K cfg.offset cfg.supply cfg.focus =
      ((Reader.settle K cfg.offset cfg.supply cfg.focus).1, here, s) := Prod.ext rfl place.settled
  have same : cfg.offset = offset := place.offset
  rw [← same] at acts
  unfold Reader.step
  split
  · rename_i value focus
    exact absurd focus (place.noStar rfl _ _)
  · rw [settles]
    simp only [acts]

theorem At.leads {next : Config σ α}
    (acts : Reader.act K limit offset s cfg.groups here c = (log, .ok next)) :
    tracedFrom K T limit cfg t₀ (c :: rest) = tracedFrom K T limit next (T.tellAll t log) rest := by
  rw [tracedFrom, place.step acts]
  simp only [T.tellAll_append, place.told]

theorem At.stops {e : PatternError}
    (acts : Reader.act K limit offset s cfg.groups here c = (log, .error e)) :
    tracedFrom K T limit cfg t₀ (c :: rest) = (.error e, T.tellAll t log) := by
  rw [tracedFrom, place.step acts]
  simp only [T.tellAll_append, place.told]

omit place in
theorem At.closing (place : At K T cfg t₀ k here s t) :
    T.tellAll t₀ (Reader.closing K cfg).1 = T.tellAll t (Reader.close K k.offset s here).1 ∧
      (Reader.closing K cfg).2 = (Reader.close K k.offset s here).2 := by
  have settles : Reader.settle K cfg.offset cfg.supply cfg.focus =
      ((Reader.settle K cfg.offset cfg.supply cfg.focus).1, here, s) := Prod.ext rfl place.settled
  unfold Reader.closing
  rw [settles, ← place.offset]
  refine ⟨?_, rfl⟩
  rw [T.tellAll_append, place.told]

end Places

section Ends

variable {group : Group α} {outer : List (Group α)} {behind : List Char} {whole : α} {s' : σ} {t' : τ}
  (place : At K T cfg t₀ k here s t) (told : T.tellAll t (Reader.close K k.offset s here).1 = t')
include place told

theorem At.unclosed (groups : cfg.groups = group :: outer) (empty : k.rest = []) :
    tracedFrom K T limit cfg t₀ k.rest = (.error (.unterminatedGroup group.opened k.offset),
      T.failAll t' (rulesAround (outer.length + 1)) (.unterminatedGroup group.opened k.offset)) := by
  rw [empty, tracedFrom, Reader.finish_unclosed (place.begun empty) groups, place.offset,
    T.tellAll_append, place.closing.1, told, Reader.tellAll_unwind, groups]
  rfl

theorem At.completes (groups : cfg.groups = []) (empty : k.rest = [])
    (closed : (Reader.close K k.offset s here).2 = (whole, s')) :
    tracedFrom K T limit cfg t₀ k.rest = (.ok whole, t') := by
  obtain ⟨completed, same⟩ := place.closing
  rw [empty, tracedFrom, Reader.finish_closed (place.begun empty) groups, completed, told, same,
    closed]

theorem At.closes (groups : cfg.groups = group :: outer) (closing : k.rest = ')' :: behind)
    (closed : (Reader.close K k.offset s here).2 = (whole, s')) :
    tracedFrom K T limit cfg t₀ k.rest =
      tracedFrom K T limit ⟨k.offset + ')'.utf8Size, s', outer, .factor group.outer whole⟩
        (T t' (.leave .base (K.describe whole))) behind := by
  obtain ⟨offset, rest⟩ := k
  obtain rfl : rest = ')' :: behind := closing
  have closed : Reader.close K offset s here = ((Reader.close K offset s here).1, whole, s') :=
    Prod.ext rfl closed
  have acts : Reader.act K limit offset s cfg.groups here ')' =
      ((Reader.close K offset s here).1 ++
        [⟨.leave .base (K.describe whole), offset + ')'.utf8Size, s'⟩],
        .ok ⟨offset + ')'.utf8Size, s', outer, .factor group.outer whole⟩) := by
    rw [groups]
    simp only [Reader.act, Reader.closeGroup]
    rw [closed]
  rw [place.leads acts, T.tellAll_append, told]
  rfl

theorem At.stray (groups : cfg.groups = []) (closing : k.rest = ')' :: behind) :
    tracedFrom K T limit cfg t₀ k.rest =
      (.error (.unexpected .endOfInput (some ')') k.offset), t') := by
  obtain ⟨offset, rest⟩ := k
  obtain rfl : rest = ')' :: behind := closing
  have acts : Reader.act K limit offset s cfg.groups here ')' = ((Reader.close K offset s here).1,
      .error (.unexpected .endOfInput (some ')') offset)) := by
    rw [groups]
    rfl
  rw [place.stops acts, told]

end Ends

variable (K T limit) in
def FactorsFollow (k : Cursor) : Prop :=
  ∀ cfg t₀ here s t, At K T cfg t₀ k here s t →
    Follows K T limit cfg t₀ k (.term :: .regex :: rulesAround cfg.groups.length)
      (factors K T limit cfg.groups.length here.term k s t) fun p t next t₁ =>
        next.groups = cfg.groups ∧ TermEnds p.place ∧
          At K T next t₁ p.place ⟨here.done, p.value⟩ p.supply t

variable (K T limit) in
def BaseFollows (k : Cursor) : Prop :=
  ∀ cfg t₀ here s t, At K T cfg t₀ k here s t → ¬TermEnds k →
    Follows K T limit cfg t₀ k (.factor :: .term :: .regex :: rulesAround cfg.groups.length)
      (base K T limit cfg.groups.length k s (T t (.enter .factor k.offset))) fun p t next t₁ =>
        next = ⟨p.place.offset, p.supply, cfg.groups, .factor here p.value⟩ ∧ t₁ = t

variable (K T limit) in
def RegexFollows (k : Cursor) : Prop :=
  ∀ cfg t₀ s t, At K T cfg t₀ k ⟨[], (K.empty s).1⟩ (K.empty s).2
      (T (T (T t (.enter .regex k.offset)) (.enter .term k.offset))
        (.build .empty (K.describe (K.empty s).1))) →
    Follows K T limit cfg t₀ k (rulesAround cfg.groups.length)
      (regex K T limit cfg.groups.length k s t) fun p t next t₁ =>
        next.groups = cfg.groups ∧ (p.place.rest = [] ∨ ∃ behind, p.place.rest = ')' :: behind) ∧
          ∃ here s' t', At K T next t₁ p.place here s' t' ∧
            (Reader.close K p.place.offset s' here).2 = (p.value, p.supply) ∧
            T.tellAll t' (Reader.close K p.place.offset s' here).1 = t

variable (K T limit) in
theorem stars_follow (groups : List (Group α)) (here : Branches α) (p : Parsed σ α bound) (t : τ) :
    tracedFrom K T limit ⟨p.place.offset, p.supply, groups, .factor here p.value⟩ t p.place.rest =
      tracedFrom K T limit ⟨(stars K T p t).1.place.offset, (stars K T p t).1.supply, groups,
        .factor here (stars K T p t).1.value⟩ (stars K T p t).2 (stars K T p t).1.place.rest ∧
    (stars K T p t).1.place.rest.head? ≠ some '*' := by
  fun_induction stars K T p t with
  | case1 p t rest starred repeated s' made ih =>
    have one : Reader.step K limit ⟨p.place.offset, p.supply, groups, .factor here p.value⟩ '*' =
        ([⟨.build .repetition (K.describe repeated), p.place.offset + '*'.utf8Size, s'⟩],
          .ok ⟨p.place.offset + '*'.utf8Size, s', groups, .factor here repeated⟩) := by
      unfold Reader.step Reader.star
      simp only [made]
    rw [starred, tracedFrom, one]
    exact ih
  | case2 p t noStar =>
    refine ⟨rfl, ?_⟩
    intro star
    obtain ⟨behind, same⟩ := List.head?_eq_some_iff.mp star
    exact noStar behind same

/-- The reader has a factor before it, with all its stars, and has yet to leave it. -/
structure HasRead (K : Construction σ α β) (T : Tracer τ β) (here : Branches α)
    (groups : List (Group α)) {bound : Nat} (p : Parsed σ α bound) (t : τ) (next : Config σ α)
    (t₁ : τ) : Prop where
  place : next = ⟨p.place.offset, p.supply, groups, .factor here p.value⟩
  noStar : p.place.rest.head? ≠ some '*'
  owes : T t₁ (.leave .factor (K.describe p.value)) = t

theorem factor_follows (base : BaseFollows K T limit k) (place : At K T cfg t₀ k here s t)
    (goes : ¬TermEnds k) :
    Follows K T limit cfg t₀ k (.term :: .regex :: rulesAround cfg.groups.length)
      (factor K T limit cfg.groups.length k s t) (HasRead K T here cfg.groups) := by
  rw [factor]
  apply Follows.around
  have first := base cfg t₀ here s t place goes
  split
  · rename_i e t' failed
    rw [failed] at first
    exact first
  · rename_i b t' parsed
    rw [parsed] at first
    obtain ⟨_, t₁, ⟨rfl, rfl⟩, reached⟩ := first
    obtain ⟨leads, noStar⟩ := stars_follow K T limit cfg.groups here b t₁
    exact ⟨_, _, ⟨rfl, noStar, rfl⟩, reached.trans leads⟩

theorem factors_follow (base : BaseFollows K T limit k)
    (later : ∀ behind : Cursor, behind.rest.length < k.rest.length →
      FactorsFollow K T limit behind) : FactorsFollow K T limit k := by
  intro cfg t₀ here s t place
  rw [factors]
  split
  · rename_i ends
    exact ⟨cfg, t₀, ⟨rfl, ends, place⟩, rfl⟩
  · rename_i goes
    have first := factor_follows base place goes
    split
    · rename_i e t' failed
      rw [failed] at first
      exact first
    · rename_i f t' parsed
      rw [parsed] at first
      obtain ⟨_, t₁, ⟨rfl, noStar, left⟩, reached⟩ := first
      -- The reader still owes the exit of the factor and its joining to the term.
      have standing : At K T ⟨f.place.offset, f.supply, cfg.groups, .factor here f.value⟩ t₁ f.place
          ⟨here.done, K.concatenate here.term f.value⟩ f.supply
          (T t' (.build .concatenate (K.describe (K.concatenate here.term f.value)))) :=
        ⟨rfl, rfl, by rw [← left]; rfl, fun star => absurd star noStar, fun _ opened => by contradiction⟩
      have rest := (later f.place f.fewer _ _ _ _ _ standing).moved reached
      split
      · rename_i e t'' failed
        rw [failed] at rest
        exact rest
      · rename_i r t'' parsed
        rw [parsed] at rest
        exact rest

/-- A term is begun: the tracer knows of its entry and of the empty value. -/
def begun (K : Construction σ α β) (T : Tracer τ β) (offset : Nat) (s : σ) (t : τ) : τ :=
  T (T t (.enter .term offset)) (.build .empty (K.describe (K.empty s).1))

/-- The reader has the alternation before it, complete but for its end. -/
structure HasBranches (K : Construction σ α β) (T : Tracer τ β) (groups : List (Group α))
    {bound : Nat} (p : Parsed σ α bound) (t : τ) (next : Config σ α) (t₁ : τ) : Prop where
  groups : next.groups = groups
  ends : p.place.rest = [] ∨ ∃ behind, p.place.rest = ')' :: behind
  branches : ∃ here s' t', At K T next t₁ p.place here s' t' ∧
    join K T s' (T t' (.leave .term (K.describe here.term))) here.done (K.stamp here.term) =
      (p.value, p.supply, t)

variable (K T limit) in
def BranchesFollow (k : Cursor) : Prop :=
  ∀ cfg t₀ done s t, At K T cfg t₀ k ⟨done, (K.empty s).1⟩ (K.empty s).2 (begun K T k.offset s t) →
    Follows K T limit cfg t₀ k (.regex :: rulesAround cfg.groups.length)
      (branches K T limit cfg.groups.length done k s t) (HasBranches K T cfg.groups)

theorem branches_follow (factors : FactorsFollow K T limit k)
    (later : ∀ behind : Cursor, behind.rest.length < k.rest.length →
      BranchesFollow K T limit behind) : BranchesFollow K T limit k := by
  intro cfg t₀ done s t place
  have first : Follows K T limit cfg t₀ k (.regex :: rulesAround cfg.groups.length)
      (term K T limit cfg.groups.length k s t) fun p t next t₁ =>
        next.groups = cfg.groups ∧ TermEnds p.place ∧ ∃ t', At K T next t₁ p.place ⟨done, p.value⟩
          p.supply t' ∧ T t' (.leave .term (K.describe p.value)) = t := by
    rw [term]
    apply Follows.around
    refine (factors cfg t₀ _ _ _ place).imp ?_
    rintro p t' next t₁ ⟨groups, ends, standing⟩
    exact ⟨groups, ends, t', standing, rfl⟩
  rw [branches]
  split
  · rename_i e t' failed
    rw [failed] at first
    exact first
  · rename_i p t' parsed
    rw [parsed] at first
    obtain ⟨middle, t₁, ⟨groups, ends, t₂, standing, left⟩, reached⟩ := first
    split
    · rename_i behind bar
      have here : At K T middle t₁ ⟨p.place.offset, '|' :: behind⟩ ⟨done, p.value⟩ p.supply t₂ := by
        rw [← bar]
        exact standing
      have barred : tracedFrom K T limit middle t₁ ('|' :: behind) = _ := here.leads rfl
      rw [bar, barred] at reached
      have fewer := p.fewer
      rw [bar, List.length_cons] at fewer
      have branch := (later ⟨p.place.offset + '|'.utf8Size, behind⟩ (Nat.lt_of_succ_lt_succ fewer)
        _ _ (K.stamp p.value :: done) p.supply t' ⟨rfl, rfl, by rw [← left]; rfl, by simp,
          by simp⟩).moved reached
      simp only [groups] at branch
      split
      · rename_i e t'' failed
        rw [failed] at branch
        exact branch
      · rename_i r t'' parsed
        rw [parsed] at branch
        obtain ⟨last, t₃, ⟨outer, closes, joined⟩, leads⟩ := branch
        exact ⟨last, t₃, ⟨outer, closes, joined⟩, leads⟩
    · rename_i noBar
      have closes := (termEnds_iff.mp ends).imp_right fun either =>
        either.resolve_left (not_exists.mpr noBar)
      refine ⟨middle, t₁, ⟨groups, closes, _, _, t₂, standing, ?_⟩, reached⟩
      rw [left]

theorem regex_follows (branches : BranchesFollow K T limit k) : RegexFollows K T limit k := by
  intro cfg t₀ s t place
  rw [regex]
  apply Follows.around
  refine (branches cfg t₀ [] s _ place).imp ?_
  rintro p t' next t₁ ⟨groups, ends, here, s', t'', standing, joined⟩
  rw [join_eq p.place.offset] at joined
  obtain ⟨value, rest⟩ := Prod.mk.inj joined
  obtain ⟨supply, told⟩ := Prod.mk.inj rest
  have united : Reader.unite K p.place.offset s' here.done (K.stamp here.term) =
      ((Reader.unite K p.place.offset s' here.done (K.stamp here.term)).1, p.value, p.supply) :=
    Prod.ext rfl (Prod.ext value supply)
  refine ⟨groups, ends, here, s', t'', standing, ?_, ?_⟩
  · unfold Reader.close
    rw [united]
  · unfold Reader.close
    rw [united, T.tellAll_append, ← told]
    rfl

section Base

variable {depth offset : Nat} {rest behind : List Char} {e : PatternError} {c : Char} {t' : τ}

theorem around_of_error {rule : Rule} {body : τ → Except PatternError (Parsed σ α bound) × τ}
    (failed : body (T t (.enter rule offset)) = (.error e, t')) :
    around K T rule offset t body = (.error e, T t' (.fail rule e)) := by
  unfold around
  rw [failed]

theorem around_of_ok {rule : Rule} {body : τ → Except PatternError (Parsed σ α bound) × τ}
    {p : Parsed σ α bound} (parsed : body (T t (.enter rule offset)) = (.ok p, t')) :
    around K T rule offset t body = (.ok p, T t' (.leave rule (K.describe p.value))) := by
  unfold around
  rw [parsed]

theorem base_of_tooDeep (deep : Reader.depthError? limit depth offset = some e) :
    base K T limit depth ⟨offset, '(' :: rest⟩ s t =
      (.error e, T (T t (.enter .base offset)) (.fail .base e)) := by
  rw [base]
  apply around_of_error
  simp only [deep]

theorem base_of_end (shallow : Reader.depthError? limit depth offset = none) :
    base K T limit depth ⟨offset, ['(']⟩ s t = (.error (.inputEnds (offset + '('.utf8Size)),
      T (T t (.enter .base offset)) (.fail .base (.inputEnds (offset + '('.utf8Size)))) := by
  rw [base]
  apply around_of_error
  simp only [shallow]
  rfl

theorem base_of_error (shallow : Reader.depthError? limit depth offset = none) (more : rest ≠ [])
    (failed : regex K T limit (depth + 1) ⟨offset + '('.utf8Size, rest⟩ s
      (T t (.enter .base offset)) = (.error e, t')) :
    base K T limit depth ⟨offset, '(' :: rest⟩ s t = (.error e, T t' (.fail .base e)) := by
  rw [base]
  apply around_of_error
  simp only [shallow, if_neg more, failed]

theorem base_of_unclosed (shallow : Reader.depthError? limit depth offset = none)
    (more : rest ≠ []) {r : Parsed σ α (rest.length + 1)}
    (parsed : regex K T limit (depth + 1) ⟨offset + '('.utf8Size, rest⟩ s
      (T t (.enter .base offset)) = (.ok r, t')) (noClose : ∀ behind, r.place.rest ≠ ')' :: behind) :
    base K T limit depth ⟨offset, '(' :: rest⟩ s t =
      (.error (.unterminatedGroup offset r.place.offset),
        T t' (.fail .base (.unterminatedGroup offset r.place.offset))) := by
  rw [base]
  apply around_of_error
  simp only [shallow, if_neg more, parsed]

theorem base_of_closed (shallow : Reader.depthError? limit depth offset = none)
    (more : rest ≠ []) {r : Parsed σ α (rest.length + 1)}
    (parsed : regex K T limit (depth + 1) ⟨offset + '('.utf8Size, rest⟩ s
      (T t (.enter .base offset)) = (.ok r, t')) (closed : r.place.rest = ')' :: behind) :
    ∃ fewer, base K T limit depth ⟨offset, '(' :: rest⟩ s t =
      (.ok ⟨r.value, r.supply, ⟨r.place.offset + ')'.utf8Size, behind⟩, fewer⟩,
        T t' (.leave .base (K.describe r.value))) := by
  have fewer : behind.length < (Cursor.mk offset ('(' :: rest)).rest.length := by
    have bound := r.fewer
    rw [closed, List.length_cons] at bound
    exact Nat.lt_succ_of_lt (Nat.lt_of_succ_lt_succ bound)
  refine ⟨fewer, ?_⟩
  rw [base]
  apply around_of_ok
  simp only [shallow, if_neg more, parsed]
  split
  · rename_i same
    obtain ⟨_, rfl⟩ := List.cons.inj (closed.symm.trans same)
    rfl
  · rename_i unclosed
    exact absurd closed (unclosed behind)

theorem base_of_literal (letter : Reader.IsLiteral c) :
    base K T limit depth ⟨offset, c :: rest⟩ s t =
      (.ok ⟨(K.primitive c s).1, (K.primitive c s).2, ⟨offset + c.utf8Size, rest⟩,
        Nat.lt_succ_self _⟩, T (T (T t (.enter .base offset))
          (.build (.primitive c) (K.describe (K.primitive c s).1)))
          (.leave .base (K.describe (K.primitive c s).1))) := by
  rw [base]
  rcases Reader.isLiteral_iff.mp letter with rfl | rfl | rfl
  · rfl
  · rfl
  · rfl

theorem base_of_misplaced (notOpen : c ≠ '(') (noLetter : ¬Reader.IsLiteral c) :
    base K T limit depth ⟨offset, c :: rest⟩ s t =
      (.error (.unexpected .symbol (some c) offset),
        T (T t (.enter .base offset)) (.fail .base (.unexpected .symbol (some c) offset))) := by
  unfold Reader.IsLiteral at noLetter
  rw [base]
  apply around_of_error
  simp only [noLetter]
  exact if_neg not_false

theorem tellAll_called (levels : Nat) :
    T.tellAll t (⟨.enter .factor offset, offset, s⟩ :: ⟨.enter .base offset, offset, s⟩ ::
        Reader.unwind (levels + 1) e offset s) =
      T.failAll (T (T (T t (.enter .factor offset)) (.enter .base offset)) (.fail .base e))
        (.factor :: .term :: .regex :: rulesAround levels) e :=
  Reader.tellAll_unwind (T (T t (.enter .factor offset)) (.enter .base offset)) (levels + 1) e
    offset s

theorem group_follows (cfg : Config σ α) (place : At K T cfg t₀ ⟨offset, '(' :: rest⟩ here s t)
    (inner : RegexFollows K T limit ⟨offset + '('.utf8Size, rest⟩) :
    Follows K T limit cfg t₀ ⟨offset, '(' :: rest⟩
      (.factor :: .term :: .regex :: rulesAround cfg.groups.length)
      (base K T limit cfg.groups.length ⟨offset, '(' :: rest⟩ s (T t (.enter .factor offset)))
      fun p t next t₁ =>
        next = ⟨p.place.offset, p.supply, cfg.groups, .factor here p.value⟩ ∧ t₁ = t := by
  cases depth : Reader.depthError? limit cfg.groups.length offset with
  | some e =>
    have acts : Reader.act K limit offset s cfg.groups here '(' =
        (⟨.enter .factor offset, offset, s⟩ :: ⟨.enter .base offset, offset, s⟩ ::
          Reader.unwind (cfg.groups.length + 1) e offset s, .error e) := by
      simp only [Reader.act, Reader.openGroup, depth]
      rfl
    rw [base_of_tooDeep depth]
    refine (place.stops acts).trans ?_
    rw [tellAll_called]
  | none =>
    have acts : Reader.act K limit offset s cfg.groups here '(' =
        ([⟨.enter .factor offset, offset, s⟩, ⟨.enter .base offset, offset, s⟩],
          .ok ⟨offset + '('.utf8Size, s, ⟨offset, here⟩ :: cfg.groups, .opened⟩) := by
      simp only [Reader.act, Reader.openGroup, depth]
      rfl
    have leads := place.leads acts
    by_cases ends : rest = []
    · subst rest
      rw [base_of_end depth]
      exact leads.trans (Prod.ext rfl (Reader.tellAll_unwind _ _ _ _ _))
    · have reads : Follows K T limit cfg t₀ ⟨offset, '(' :: rest⟩
          (rulesAround (cfg.groups.length + 1))
          (regex K T limit (cfg.groups.length + 1) ⟨offset + '('.utf8Size, rest⟩ s
            (T (T t (.enter .factor offset)) (.enter .base offset))) _ :=
        (inner ⟨offset + '('.utf8Size, s, ⟨offset, here⟩ :: cfg.groups, .opened⟩ _ s _
          ⟨rfl, rfl, rfl, by simp, fun empty => absurd empty ends⟩).moved leads
      rcases parsed : regex K T limit (cfg.groups.length + 1) ⟨offset + '('.utf8Size, rest⟩ s
        (T (T t (.enter .factor offset)) (.enter .base offset)) with ⟨e | r, t'⟩
      · rw [parsed] at reads
        rw [base_of_error depth ends parsed]
        exact reads
      · rw [parsed] at reads
        obtain ⟨next, t₁, ⟨groups, closes, here', s', t'', standing, value, told⟩, reached⟩ := reads
        rcases closes with empty | ⟨behind, closing⟩
        · rw [base_of_unclosed depth ends parsed (by simp [empty])]
          exact reached.trans (standing.unclosed told groups empty)
        · obtain ⟨_, parsed⟩ := base_of_closed depth ends parsed closing
          rw [parsed]
          exact ⟨_, _, ⟨rfl, rfl⟩, reached.trans (standing.closes told groups closing value)⟩

end Base

theorem base_follows (inner : ∀ behind : Cursor, behind.rest.length < k.rest.length →
    RegexFollows K T limit behind) : BaseFollows K T limit k := by
  intro cfg t₀ here s t place goes
  obtain ⟨offset, text⟩ := k
  simp only [termEnds_iff, not_or, not_exists] at goes
  obtain ⟨more, noBar, noClose⟩ := goes
  cases text with
  | nil => contradiction
  | cons c rest =>
    by_cases opening : c = '('
    · subst c
      exact group_follows cfg place (inner _ (Nat.lt_succ_self _))
    -- The reader looks for a bar and a closing parenthesis first; the rules did so before they
    -- came to a base.
    have notBar : c ≠ '|' := fun bar => noBar rest (congrArg (· :: rest) bar)
    have notClose : c ≠ ')' := fun close => noClose rest (congrArg (· :: rest) close)
    have acts : Reader.act K limit offset s cfg.groups here c =
        (⟨.enter .factor offset, offset, s⟩ :: ⟨.enter .base offset, offset, s⟩ ::
          (Reader.literal K c offset s cfg.groups here).1,
          (Reader.literal K c offset s cfg.groups here).2) := by
      unfold Reader.act
      split
      · contradiction
      · contradiction
      · rw [if_neg opening]
    by_cases letter : Reader.IsLiteral c
    · rw [base_of_literal letter]
      unfold Reader.IsLiteral at letter
      unfold Reader.literal at acts
      rw [if_pos letter] at acts
      exact ⟨_, _, ⟨rfl, rfl⟩, place.leads acts⟩
    · rw [base_of_misplaced opening letter]
      unfold Reader.IsLiteral at letter
      unfold Reader.literal at acts
      rw [if_neg letter] at acts
      refine (place.stops acts).trans ?_
      rw [tellAll_called]

variable (K T limit) in
theorem rules_follow (k : Cursor) :
    FactorsFollow K T limit k ∧ BranchesFollow K T limit k ∧ RegexFollows K T limit k := by
  -- a base has the alternation of its group behind the parenthesis, so with less ahead
  induction ahead : k.rest.length using Nat.strongRecOn generalizing k with
  | ind n ih =>
    subst ahead
    have base := base_follows fun behind fewer => (ih _ fewer behind rfl).2.2
    have factors := factors_follow base fun behind fewer => (ih _ fewer behind rfl).1
    have branches := branches_follow factors fun behind fewer => (ih _ fewer behind rfl).2.1
    exact ⟨factors, branches, regex_follows branches⟩

/-- The rules end as the reader does, and tell a tracer what the reader logs, in that order. -/
theorem read_eq (s : σ) (t : τ) (text : List Char) :
    read K T limit s t text =
      ((Reader.read K limit s text).outcome, T.tellAll t (Reader.read K limit s text).log) := by
  obtain ⟨_, _, follows⟩ := rules_follow K T limit (.ofText text)
  have whole : Follows K T limit (Reader.start K s).2 (T.tellAll t (Reader.start K s).1)
      (.ofText text) [] (regex K T limit 0 (.ofText text) s t) _ :=
    follows (Reader.start K s).2 (T.tellAll t (Reader.start K s).1) s t
      ⟨rfl, rfl, rfl, by simp [Reader.start], by simp [Reader.start]⟩
  rw [← Reader.tracedFrom_start, read]
  rcases parsed : regex K T limit 0 (.ofText text) s t with ⟨e | r, t'⟩
  · rw [parsed] at whole
    exact whole.symm
  · rw [parsed] at whole
    obtain ⟨last, t₁, ⟨groups, closes, here, s', t'', standing, value, told⟩, reached⟩ := whole
    refine Eq.trans ?_ reached.symm
    rcases closes with empty | ⟨behind, closing⟩
    · rw [standing.completes told groups empty value]
      simp only [empty]
    · rw [standing.stray told groups closing]
      simp only [closing]

end Rules

/-- To compile a pattern by the rules is to compile it, with any tracer, and a tracer is told all
    that is logged. -/
theorem compileFor_eq (T : Tracer τ Summary) (limit : Option Nat) (pattern : String) (t : τ) :
    compileFor T limit pattern t =
      (compile limit pattern, T.tellAll t (readPattern limit pattern).log) :=
  Rules.read_eq _ _ _

end Thompson
