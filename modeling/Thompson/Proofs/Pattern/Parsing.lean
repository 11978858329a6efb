import Thompson.Proofs.Pattern.Actions
import Thompson.Proofs.Pattern.Following

/-!
The parser does what the rules do that carry their state along. A call with enough time comes to
the value or the error of its rule, at the same place and with the same supply, and a tracer is
told the same. A text of so many characters needs six calls inside each other for each of them, and
six more: from one alternation to the next there are a list of branches, a term, a list of factors,
a factor and a base.
-/
namespace Thompson.Parser

open Descent (Parsed)

variable {σ α β : Type} {K : Construction σ α β} {limit : Option UInt32}

def recording : Tracer (List (Event β)) β := fun told event => told ++ [event]

variable {depth clock : Nat} {k : Cursor} {s : σ} {t : List (Event β)} {p q : Parser σ β}
  {bound : Nat} {call : Call α → Action σ β α}

/-- The count of open groups is right as far as it matters: if there is a limit. -/
def Tracks (limit : Option UInt32) (depth : Nat) (count : UInt32) : Prop :=
  ∀ n, limit = some n → count.toNat = depth ∧ depth ≤ n.toNat

/-- The parser has come to a place, with a supply, and has told this. -/
structure Stands (limit : Option UInt32) (depth : Nat) (k : Cursor) (s : σ) (t : List (Event β))
    (p : Parser σ β) : Prop where
  place : p.place = k
  supply : p.supply = s
  told : p.told = t
  tracks : Tracks limit depth p.depth

/-- A parser comes to what a rule that carries its state along comes to. -/
def Agrees (limit : Option UInt32) (depth : Nat) (out : Except Halt α × Parser σ β) :
    Except PatternError (Parsed σ α bound) × List (Event β) → Prop
  | (.ok r, t) => ∃ q, out = (.ok r.value, q) ∧ Stands limit depth r.place r.supply t q
  | (.error e, t) => ∃ q, out = (.error (.failed e), q) ∧ q.told = t

variable (K limit) in
def Call.Comes (depth : Nat) (k : Cursor) (s : σ) (t : List (Event β)) (call : Call α)
    (out : Except Halt α × Parser σ β) : Prop :=
  let limit' := limit.map UInt32.toNat
  match call with
  | .regex => Agrees limit depth out (Rules.regex K recording limit' depth k s t)
  | .branches done => Agrees limit depth out (Rules.branches K recording limit' depth done k s t)
  | .term => Agrees limit depth out (Rules.term K recording limit' depth k s t)
  | .factors value => Agrees limit depth out (Rules.factors K recording limit' depth value k s t)
  | .factor => Agrees limit depth out (Rules.factor K recording limit' depth k s t)
  | .stars value => ∀ (bound : Nat) (r : Parsed σ α bound),
      r.value = value → r.supply = s → r.place = k →
      Agrees limit depth out (.ok (Rules.stars K recording r t).1, (Rules.stars K recording r t).2)
  | .base => Agrees limit depth out (Rules.base K recording limit' depth k s t)

/-- The time that a call takes at most with so many characters ahead. -/
def Call.time (ahead : Nat) : Call α → Nat
  | .regex => 6 * ahead + 6
  | .branches _ => 6 * ahead + 5
  | .term => 6 * ahead + 4
  | .factors _ => 6 * ahead + 3
  | .factor => 6 * ahead + 2
  | .stars _ | .base => 6 * ahead + 1

variable (K limit) in
def Reads (clock : Nat) (call : Call α → Action σ β α) : Prop :=
  ∀ (c : Call α) (depth k s t p), Stands limit depth k s t p → c.time k.rest.length ≤ clock →
    c.Comes K limit depth k s t (call c p)

theorem Stands.noting (h : Stands limit depth k s t p) (event : Event β) :
    Stands limit depth k s (recording t event) (p.noting event) :=
  ⟨h.place, h.supply, by rw [told_noting, h.told, recording], h.tracks⟩

theorem Stands.construct (h : Stands limit depth k s t p) (op : Operation) (make : σ → α × σ) :
    ∃ q, construct K op make p = (.ok (make s).1, q) ∧
      Stands limit depth k (make s).2 (recording t (.build op (K.describe (make s).1))) q := by
  obtain ⟨rfl, rfl, rfl, tracks⟩ := h
  exact ⟨_, rfl, rfl, rfl, told_noting _ _, tracks⟩

theorem Stands.take {c : Char} {rest : List Char} (h : Stands limit depth k s t p)
    (ahead : k.rest = c :: rest) :
    ∃ q, take c p = (.ok (), q) ∧ Stands limit depth ⟨k.offset + c.utf8Size, rest⟩ s t q := by
  obtain ⟨rfl, rfl, rfl, tracks⟩ := h
  exact ⟨_, take_apply ahead, rfl, rfl, rfl, tracks⟩

theorem Agrees.around {rule : Rule} {body : Action σ β α}
    {inner : List (Event β) → Except PatternError (Parsed σ α bound) × List (Event β)}
    (place : p.place = k)
    (h : Agrees limit depth (body (p.noting (.enter rule k.offset)))
      (inner (recording t (.enter rule k.offset)))) :
    Agrees limit depth (around K rule body p) (Rules.around K recording rule k.offset t inner) := by
  rw [around_apply, place, Rules.around]
  rcases parsed : inner (recording t (.enter rule k.offset)) with ⟨e | r, t'⟩
  · rw [parsed] at h
    obtain ⟨q, out, rfl⟩ := h
    rw [out]
    exact ⟨_, rfl, told_noting _ _⟩
  · rw [parsed] at h
    obtain ⟨q, out, stands⟩ := h
    rw [out]
    exact ⟨_, rfl, stands.noting _⟩

theorem Agrees.bind {inner m n : Nat} {act : Action σ β α} {next : α → Action σ β α}
    {first : Except PatternError (Parsed σ α m) × List (Event β)}
    {whole : Except PatternError (Parsed σ α n) × List (Event β)}
    (h : Agrees limit inner (act p) first)
    (failed : ∀ e t, first = (.error e, t) → whole = (.error e, t))
    (goes : ∀ r t q, first = (.ok r, t) → Stands limit inner r.place r.supply t q →
      Agrees limit depth (next r.value q) whole) :
    Agrees limit depth ((act >>= next) p) whole := by
  rcases first with ⟨e | r, t⟩
  · obtain ⟨q, out, told⟩ := h
    rw [bind_of_error _ out, failed e t rfl]
    exact ⟨q, rfl, told⟩
  · obtain ⟨q, out, here⟩ := h
    rw [bind_of_ok _ out]
    exact goes r t q rfl here

theorem Agrees.weaken {m n : Nat} {out : Except Halt α × Parser σ β}
    {read : Except PatternError (Parsed σ α m) × List (Event β)}
    {whole : Except PatternError (Parsed σ α n) × List (Event β)} (h : Agrees limit depth out read)
    (less : m ≤ n) (failed : ∀ e t, read = (.error e, t) → whole = (.error e, t))
    (comes : ∀ r t, read = (.ok r, t) → whole = (.ok (r.weaken less), t)) :
    Agrees limit depth out whole := by
  rcases read with ⟨e | r, t⟩
  · rw [failed e t rfl]
    exact h
  · rw [comes r t rfl]
    exact h

theorem regex_reads (reads : Reads K limit clock call) (stands : Stands limit depth k s t p)
    (time : Call.time k.rest.length (.regex : Call α) ≤ clock + 1) :
    Call.regex.Comes K limit depth k s t (rules K limit call .regex p) := by
  simp only [Call.Comes, Rules.regex]
  apply Agrees.around stands.place
  exact reads (.branches []) _ _ _ _ _ (stands.noting _) (Nat.le_of_succ_le_succ time)

theorem join_stands (done : List α) (value : α) (stands : Stands limit depth k s t p) :
    ∃ q, join K done value p = (.ok (Rules.join K recording s t done value).1, q) ∧
      Stands limit depth k (Rules.join K recording s t done value).2.1
        (Rules.join K recording s t done value).2.2 q := by
  induction done generalizing value s t p with
  | nil => exact ⟨p, rfl, stands⟩
  | cons branch done ih =>
    obtain ⟨q, built, here⟩ := stands.construct (K := K) .union (K.union branch value)
    rw [join, bind_of_ok _ built]
    exact ih _ here

theorem branches_reads {done : List α} (reads : Reads K limit clock call)
    (stands : Stands limit depth k s t p)
    (time : Call.time k.rest.length (.branches done) ≤ clock + 1) :
    (Call.branches done).Comes K limit depth k s t (rules K limit call (.branches done) p) := by
  have first := reads .term _ _ _ _ _ stands (Nat.le_of_succ_le_succ time)
  simp only [Call.Comes, rules] at first ⊢
  rw [Rules.branches]
  refine first.bind (fun e t' parsed => by rw [parsed]) fun r t' q parsed here => ?_
  have fewer := r.fewer
  simp only [parsed, ifNext_apply, here.place]
  split
  · rename_i bar
    obtain ⟨rest, ahead⟩ := nextIs_iff.mp bar
    obtain ⟨q', taken, behind⟩ := here.take ahead
    rw [ahead, List.length_cons] at fewer
    have later := reads (.branches (K.stamp r.value :: done)) _ _ _ _ _ behind (by
      simp only [Call.time] at time ⊢
      omega)
    have less : rest.length + 1 ≤ k.rest.length + 1 := by omega
    rw [bind_of_ok _ taken]
    split
    · rename_i same
      obtain ⟨_, rfl⟩ := List.cons.inj (ahead.symm.trans same)
      refine Agrees.weaken later less (fun e t' stuck => ?_) fun r t' comes => ?_
      · rw [stuck]
      · rw [comes]
    · rename_i noBar
      exact absurd ahead (noBar rest)
  · rename_i noBar
    split
    · rename_i rest ahead
      exact absurd (nextIs_iff.mpr ⟨rest, ahead⟩) noBar
    · exact join_stands _ _ here

theorem term_reads (reads : Reads K limit clock call) (stands : Stands limit depth k s t p)
    (time : Call.time k.rest.length (.term : Call α) ≤ clock + 1) :
    Call.term.Comes K limit depth k s t (rules K limit call .term p) := by
  simp only [Call.Comes, Rules.term]
  apply Agrees.around stands.place
  obtain ⟨q, built, begun⟩ := (stands.noting (.enter .term k.offset)).construct (K := K)
    .empty K.empty
  rw [bind_of_ok _ built]
  exact reads (.factors (K.empty s).1) _ _ _ _ _ begun (Nat.le_of_succ_le_succ time)

theorem factors_reads {value : α} (reads : Reads K limit clock call)
    (stands : Stands limit depth k s t p)
    (time : Call.time k.rest.length (.factors value) ≤ clock + 1) :
    (Call.factors value).Comes K limit depth k s t (rules K limit call (.factors value) p) := by
  simp only [Call.Comes, rules]
  rw [Rules.factors, atTermEnd_apply, stands.place]
  split
  · exact ⟨p, rfl, stands⟩
  · have first := reads .factor _ _ _ _ _ stands (Nat.le_of_succ_le_succ time)
    refine Agrees.bind first (fun e t' parsed => by rw [parsed]) fun r t' q parsed here => ?_
    have fewer := r.fewer
    obtain ⟨q', built, behind⟩ := here.construct (K := K) .concatenate
      fun s => (K.concatenate value r.value, s)
    have later := reads (.factors (K.concatenate value r.value)) _ _ _ _ _ behind (by
      simp only [Call.time] at time ⊢
      omega)
    rw [bind_of_ok _ built, parsed]
    refine Agrees.weaken later (by omega) (fun e t' stuck => ?_) fun r t' comes => ?_
    · simp only [stuck]
    · simp only [comes]

theorem factor_reads (reads : Reads K limit clock call) (stands : Stands limit depth k s t p)
    (time : Call.time k.rest.length (.factor : Call α) ≤ clock + 1) :
    Call.factor.Comes K limit depth k s t (rules K limit call .factor p) := by
  simp only [Call.Comes, Rules.factor]
  apply Agrees.around stands.place
  have first := reads .base _ _ _ _ _ (stands.noting (.enter .factor k.offset))
    (Nat.le_of_succ_le_succ time)
  refine Agrees.bind first (fun e t' parsed => by rw [parsed]) fun b t' q parsed here => ?_
  have fewer := b.fewer
  have later := reads (.stars b.value) _ _ _ _ _ here (by
    simp only [Call.time] at time ⊢
    omega)
  rw [parsed]
  exact later _ b rfl rfl rfl

theorem stars_reads {value : α} (reads : Reads K limit clock call)
    (stands : Stands limit depth k s t p)
    (time : Call.time k.rest.length (.stars value) ≤ clock + 1) :
    (Call.stars value).Comes K limit depth k s t (rules K limit call (.stars value) p) := by
  simp only [Call.Comes, rules, ifNext_apply, stands.place]
  rintro bound ⟨value, s, ⟨offset, text⟩, fewer⟩ rfl rfl rfl
  split
  · rename_i star
    obtain ⟨rest, rfl⟩ := nextIs_iff.mp star
    obtain ⟨q, taken, here⟩ := stands.take rfl
    obtain ⟨q', built, behind⟩ := here.construct (K := K) .repetition (K.repetition value)
    have later := reads (.stars (K.repetition value s).1) _ _ _ _ _ behind (by
      simp only [Call.time, List.length_cons] at time ⊢
      omega)
    rw [bind_of_ok _ taken, bind_of_ok _ built, Rules.stars]
    exact later _ _ rfl rfl rfl
  · rename_i noStar
    rw [Rules.stars]
    split
    · rename_i rest ahead
      exact absurd (nextIs_iff.mpr ⟨rest, ahead⟩) noStar
    · exact ⟨p, rfl, stands⟩

section Base

variable {rest : List Char}

theorem limitError?_eq (tracks : Tracks limit depth p.depth) : limitError? limit p =
    Reader.depthError? (limit.map UInt32.toNat) depth p.place.offset := by
  cases limit with
  | none => rfl
  | some n =>
    obtain ⟨count, _⟩ := tracks n rfl
    simp only [limitError?, Reader.depthError?, Option.bind_some, Option.map_some,
      UInt32.le_iff_toNat_le, count]

theorem Tracks.raised {offset : Nat} (tracks : Tracks limit depth p.depth)
    (shallow : Reader.depthError? (limit.map UInt32.toNat) depth offset = none) :
    Tracks limit (depth + 1) p.raised.depth := by
  rintro n rfl
  obtain ⟨same, _⟩ := tracks n rfl
  have room : depth < n.toNat := Reader.depthError?_eq_none.mp shallow _ rfl
  have most := n.toNat_lt_size
  rw [toNat_raised (by omega), same]
  omega

theorem Tracks.lowered (tracks : Tracks limit (depth + 1) p.depth) :
    Tracks limit depth p.lowered.depth := by
  rintro n rfl
  obtain ⟨same, within⟩ := tracks n rfl
  rw [toNat_lowered, same]
  omega

theorem group_agrees (reads : Reads K limit clock call)
    (stands : Stands limit depth k s t p) (ahead : k.rest = '(' :: rest)
    (time : Call.time rest.length (.regex : Call α) ≤ clock) :
    Agrees limit depth (around K .base (group limit call) p) (Rules.base K recording
      (limit.map UInt32.toNat) depth k s t) := by
  obtain ⟨offset, _⟩ := k
  subst ahead
  rw [Rules.base]
  apply Agrees.around stands.place
  have begun := stands.noting (.enter .base offset)
  have ahead : (p.noting (.enter .base offset)).place.rest = '(' :: rest := by rw [begun.place]
  have same := limitError?_eq begun.tracks
  rw [begun.place] at same
  -- Both of them look at the limit first, and then for the end of the text.
  cases deep : Reader.depthError? (limit.map UInt32.toNat) depth offset with
  | some e =>
    exact ⟨_, group_of_tooDeep (same.trans deep), begun.told⟩
  | none =>
    have inner : Stands limit (depth + 1) ⟨offset + '('.utf8Size, rest⟩ s
        (recording t (.enter .base offset))
        ((p.noting (.enter .base offset)).raised.past '(' rest) :=
      ⟨by rw [past, raised, begun.place], begun.supply, begun.told, begun.tracks.raised deep⟩
    simp only
    split
    · rename_i ends
      subst ends
      have stuck : group limit call _ = _ := group_of_end (same.trans deep) ahead
      rw [begun.place] at stuck
      exact ⟨_, stuck, inner.told⟩
    · rename_i more
      rw [group_of_more (same.trans deep) ahead more, begun.place]
      refine Agrees.bind (reads .regex _ _ _ _ _ inner time) (fun e t' stuck => by rw [stuck])
        fun r t' q parsed here => ?_
      simp only [parsed, ifNext_apply, here.place]
      split
      · rename_i closes
        obtain ⟨behind, closing⟩ := nextIs_iff.mp closes
        obtain ⟨q', taken, outside⟩ := here.take closing
        rw [bind_of_ok _ taken]
        split
        · rename_i again
          obtain ⟨_, rfl⟩ := List.cons.inj (closing.symm.trans again)
          exact ⟨q'.lowered, rfl, outside.place, outside.supply, outside.told,
            outside.tracks.lowered⟩
        · rename_i unclosed
          exact absurd closing (unclosed behind)
      · rename_i unclosed
        split
        · rename_i closing
          exact absurd (nextIs_iff.mpr ⟨_, closing⟩) unclosed
        · exact ⟨q, by rw [← here.place]; rfl, here.told⟩

theorem primitive_agrees (stands : Stands limit depth k s t p)
    (noGroup : ∀ rest, k.rest ≠ '(' :: rest) :
    Agrees limit depth (around K .base (primitive K) p) (Rules.base K recording
      (limit.map UInt32.toNat) depth k s t) := by
  obtain ⟨offset, text⟩ := k
  have begun := stands.noting (.enter .base offset)
  have entered : p.noting (.enter .base p.place.offset) = p.noting (.enter .base offset) := by
    rw [stands.place]
  cases text with
  | nil =>
    have ends : (p.noting (.enter .base offset)).place.rest = [] := by rw [begun.place]
    have stuck := primitive_of_end (K := K) ends
    rw [begun.place] at stuck
    rw [Rules.base]
    exact Agrees.around stands.place ⟨_, stuck, begun.told⟩
  | cons c rest =>
    have ahead : (p.noting (.enter .base offset)).place.rest = c :: rest := by rw [begun.place]
    have taken := primitive_of_next (K := K) ahead
    rw [begun.place] at taken
    have moved : Stands limit depth ⟨offset + c.utf8Size, rest⟩ s (recording t (.enter .base offset))
        ((p.noting (.enter .base offset)).past c rest) :=
      ⟨by rw [past, begun.place], begun.supply, begun.told, begun.tracks⟩
    by_cases letter : Reader.IsLiteral c
    · have known : ¬(c ≠ emptyMark ∧ ¬isSymbol c) := by
        rintro ⟨noMark, noSymbol⟩
        exact letter.elim noSymbol noMark
      obtain ⟨q, built, behind⟩ := moved.construct (K := K) (.primitive c)
        (K.primitive c)
      rw [if_neg known, built] at taken
      rw [Rules.base_of_literal letter]
      exact ⟨_, around_of_ok (by rw [entered]; exact taken), behind.noting _⟩
    · have unknown : c ≠ emptyMark ∧ ¬isSymbol c :=
        ⟨fun mark => letter (.inr mark), fun symbol => letter (.inl symbol)⟩
      rw [if_pos unknown] at taken
      have noOpening : c ≠ '(' := fun opening => noGroup rest (congrArg (· :: rest) opening)
      rw [Rules.base_of_misplaced noOpening letter]
      exact ⟨_, around_of_error (by rw [entered]; exact taken), (moved.noting _).told⟩

end Base

theorem base_reads (reads : Reads K limit clock call) (stands : Stands limit depth k s t p)
    (time : Call.time k.rest.length (.base : Call α) ≤ clock + 1) :
    Call.base.Comes K limit depth k s t (rules K limit call .base p) := by
  simp only [Call.Comes, rules]
  by_cases opening : k.nextIs '(' = true
  · obtain ⟨rest, ahead⟩ := nextIs_iff.mp opening
    rw [around_congr _ (group limit call)]
    · exact group_agrees reads stands ahead (by
        simp only [Call.time, ahead, List.length_cons] at time ⊢
        omega)
    · rw [ifNext_apply, if_pos (by rw [(stands.noting _).place, opening])]
  · rw [around_congr _ (primitive K)]
    · exact primitive_agrees stands fun rest ahead => opening (nextIs_iff.mpr ⟨rest, ahead⟩)
    · rw [ifNext_apply, if_neg (by rw [(stands.noting _).place]; exact opening)]

variable (K limit) in
theorem run_reads (clock : Nat) : Reads K limit clock (run K limit clock) := by
  induction clock with
  | zero =>
    intro c depth k s t p _ time
    cases c with
    | regex | branches | term | factors | factor | stars | base => simp [Call.time] at time
  | succ clock ih =>
    -- Every call in a call is left one unit of time less, and by its measure takes less as well.
    intro c depth k s t p stands time
    cases c with
    | regex => exact regex_reads ih stands time
    | branches done => exact branches_reads ih stands time
    | term => exact term_reads ih stands time
    | factors value => exact factors_reads ih stands time
    | factor => exact factor_reads ih stands time
    | stars value => exact stars_reads ih stands time
    | base => exact base_reads ih stands time

variable (K limit) in
theorem root_eq (s : σ) (text : List Char) (time : 6 * text.length + 6 ≤ clock) :
    let read := Rules.read K recording (limit.map UInt32.toNat) s [] text
    (root K limit clock (start s text)).1 = read.1.mapError .failed ∧
      (root K limit clock (start s text)).2.told = read.2 := by
  have stands : Stands limit 0 (.ofText text) s ([] : List (Event β)) (start s text) := by
    refine ⟨rfl, rfl, rfl, fun n _ => ⟨rfl, Nat.zero_le _⟩⟩
  have reading := run_reads K limit clock .regex _ _ _ _ _ stands time
  simp only [Call.Comes] at reading
  simp only [Rules.read]
  rcases parsed : Rules.regex K recording (limit.map UInt32.toNat) 0 (.ofText text) s []
    with ⟨e | r, t⟩
  · rw [parsed] at reading
    obtain ⟨q, out, told⟩ := reading
    rw [root, bind_of_error _ out]
    exact ⟨rfl, told⟩
  · rw [parsed] at reading
    obtain ⟨q, out, here⟩ := reading
    obtain ⟨place, supply, told, _⟩ := here
    obtain ⟨_, _, count, log⟩ := q
    subst place supply told
    rw [root, bind_of_ok _ out]
    obtain ⟨value, _, ⟨offset, rest⟩, _⟩ := r
    cases rest with
    | nil => exact ⟨rfl, rfl⟩
    | cons c rest => exact ⟨rfl, rfl⟩

end Thompson.Parser

namespace Thompson

theorem foldl_recording {β : Type} (t es : List (Event β)) :
    es.foldl Parser.recording t = t ++ es := by
  induction es generalizing t with
  | nil => simp
  | cons event es ih => simp [Parser.recording, ih]

/-- With enough time parsing a pattern is compiling it, and a tracer is told what is logged. -/
theorem parse_eq (limit : Option UInt32) {clock : Nat} (pattern : String)
    (time : 6 * pattern.length + 6 ≤ clock) :
    (parse limit clock pattern).1 =
        (compile (limit.map UInt32.toNat) pattern).mapError .failed ∧
      (parse limit clock pattern).2.told = events (limit.map UInt32.toNat) pattern := by
  have whole := Parser.root_eq thompson limit ⟨0⟩ pattern.toList time
  rw [Rules.read_eq, Tracer.tellAll, ← List.foldl_map, foldl_recording, List.nil_append] at whole
  exact whole

end Thompson
