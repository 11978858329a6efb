import Thompson.Pattern.Parser
import Thompson.Proofs.Pattern.Following

/-!
What the actions of the parser do to its state, and what can be said of a call from what can be
said of the calls in it. A call ends with a value and a state, or it halts in a state. What every
single step keeps is kept by every call, however it ends.
-/
namespace Thompson

variable {σ α β γ δ : Type}

/-- The event tells of a rule, not of an operation. -/
def Event.OfRule : Event β → Prop
  | .build .. => False
  | _ => True

/-- At every moment, with what was logged before it. -/
def Always (φ : List (Moment σ β) → Moment σ β → Prop) (log : List (Moment σ β)) : Prop :=
  ∀ before m after, log = before ++ m :: after → φ before m

theorem always_nil (φ : List (Moment σ β) → Moment σ β → Prop) : Always φ [] :=
  fun before m after split => by simp at split

theorem Always.concat {φ : List (Moment σ β) → Moment σ β → Prop} {log : List (Moment σ β)}
    {m : Moment σ β} (earlier : Always φ log) (now : φ log m) : Always φ (log ++ [m]) := by
  intro before m' after split
  rcases List.eq_nil_or_concat after with rfl | ⟨after, last, rfl⟩
  · obtain ⟨rfl, same⟩ := List.append_inj' split rfl
    obtain ⟨rfl, _⟩ := List.cons.inj same
    exact now
  · rw [List.concat_eq_append, ← List.cons_append, ← List.append_assoc] at split
    obtain ⟨rfl, _⟩ := List.append_inj' split rfl
    exact earlier before m' after rfl

namespace Parser

open Descent (TermEnds)

variable {K : Construction σ α β} {limit : Option UInt32} {p q : Parser σ β}
  {c : Char} {rest : List Char}

def noting (p : Parser σ β) (event : Event β) : Parser σ β :=
  { p with log := p.log ++ [⟨⟨event, p.place.offset, p.supply⟩, p.depth⟩] }

def past (p : Parser σ β) (c : Char) (rest : List Char) : Parser σ β :=
  { p with place := ⟨p.place.offset + c.utf8Size, rest⟩ }

def raised (p : Parser σ β) : Parser σ β := { p with depth := p.depth + 1 }

def lowered (p : Parser σ β) : Parser σ β :=
  { p with depth := if p.depth = 0 then 0 else p.depth - 1 }

def building (p : Parser σ β) (K : Construction σ α β) (op : Operation) (make : σ → α × σ) :
    Parser σ β :=
  noting { p with supply := (make p.supply).2 } (.build op (K.describe (make p.supply).1))

@[simp] theorem told_noting (p : Parser σ β) (event : Event β) :
    (p.noting event).told = p.told ++ [event] := by
  simp [told, noting]

theorem toNat_raised (room : p.depth.toNat + 1 < UInt32.size) :
    p.raised.depth.toNat = p.depth.toNat + 1 := by
  have one : (1 : UInt32).toNat = 1 := rfl
  simp only [UInt32.size] at room
  simp only [raised, UInt32.toNat_add, one]
  omega

theorem toNat_lowered (p : Parser σ β) : p.lowered.depth.toNat = p.depth.toNat - 1 := by
  by_cases none : p.depth = 0
  · simp [lowered, none]
  · have one : (1 : UInt32).toNat = 1 := rfl
    have some : p.depth.toNat ≠ 0 := fun zero => none (UInt32.toNat_inj.mp zero)
    have least : (1 : UInt32) ≤ p.depth := by
      rw [UInt32.le_iff_toNat_le, one]
      omega
    have down : p.lowered.depth = p.depth - 1 := if_neg none
    rw [down, UInt32.toNat_sub_of_le _ _ least, one]

section Laws

variable {value : γ} {halt : Halt} {first : Action σ β γ} {body : Action σ β α} {rule : Rule}
  {result : α} {e : PatternError}

theorem bind_apply (first : Action σ β γ) (next : γ → Action σ β δ) (p : Parser σ β) :
    (first >>= next) p = match first p with
      | (.ok value, q) => next value q
      | (.error halt, q) => (.error halt, q) := by
  change ExceptT.bindCont next (first p).1 (first p).2 = _
  rcases first p with ⟨halt | value, q⟩
  all_goals rfl

theorem bind_of_ok (next : γ → Action σ β δ) (out : first p = (.ok value, q)) :
    (first >>= next) p = next value q := by
  rw [bind_apply, out]

theorem bind_of_error (next : γ → Action σ β δ) (out : first p = (.error halt, q)) :
    (first >>= next) p = (.error halt, q) := by
  rw [bind_apply, out]

theorem observing_apply (act : Action σ β γ) (p : Parser σ β) :
    observing act p = (.ok (act p).1, (act p).2) := by
  simp only [observing, tryCatch, tryCatchThe, MonadExceptOf.tryCatch, ExceptT.tryCatch, ExceptT.mk,
    bind, StateT.bind, ExceptT.bind]
  rcases act p with ⟨halt | value, q⟩
  all_goals rfl

theorem construct_apply (op : Operation) (make : σ → α × σ) (p : Parser σ β) :
    construct K op make p = (.ok (make p.supply).1, p.building K op make) := rfl

theorem take_apply (ahead : p.place.rest = c :: rest) : take c p = (.ok (), p.past c rest) := by
  have expected : p.place.expect c = .ok ⟨p.place.offset + c.utf8Size, rest⟩ := by
    simp [Cursor.expect, ahead]
  have here : (get : Action σ β (Parser σ β)) p = (.ok p, p) := rfl
  rw [take, bind_of_ok _ here, expected]
  rfl

theorem takeNext_apply (p : Parser σ β) :
    takeNext p = match p.place.next with
      | .ok (c, place) => (.ok c, { p with place := place })
      | .error e => (.error (.failed e), p) := by
  change (match p.place.next with
    | .ok (c, place) => do
      moveTo place
      return c
    | .error e => fail e : Action σ β Char) p = _
  rcases p.place.next with e | ⟨c, place⟩
  · rfl
  · rfl

theorem raise_apply (limit : Option UInt32) (p : Parser σ β) :
    raise limit p = match limitError? limit p with
      | some e => (.error (.failed e), p)
      | none => (.ok (), p.raised) := by
  change (match limitError? limit p with
    | some e => fail e
    | none => modify fun p => { p with depth := p.depth + 1 } : Action σ β Unit) p = _
  rcases limitError? limit p with _ | e
  · rfl
  · rfl

theorem nextIs_iff {k : Cursor} : k.nextIs c = true ↔ ∃ rest, k.rest = c :: rest := by
  cases h : k.rest with
  | nil => simp [Cursor.nextIs, h]
  | cons d rest => simp [Cursor.nextIs, h]

theorem ifNext_apply (c : Char) (yes no : Action σ β γ) (p : Parser σ β) :
    (do if ← nextIs c then yes else no) p = if p.place.nextIs c then yes p else no p := by
  change (if p.place.nextIs c then yes else no) p = _
  split
  · rfl
  · rfl

theorem atTermEnd_apply (yes no : Action σ β γ) (p : Parser σ β) :
    (do if ← atTermEnd then yes else no) p =
      if p.place.rest.head? = none ∨ p.place.nextIs '|' ∨ p.place.nextIs ')' then yes p
      else no p := by
  change (if !p.place.hasMore || p.place.nextIs ')' || p.place.nextIs '|' then yes else no) p = _
  have same : (!p.place.hasMore || p.place.nextIs ')' || p.place.nextIs '|') = true ↔
      p.place.rest.head? = none ∨ p.place.nextIs '|' ∨ p.place.nextIs ')' := by
    simp [Cursor.hasMore, or_assoc, or_comm]
  simp only [same]
  split
  · rfl
  · rfl

theorem around_apply (rule : Rule) (body : Action σ β α) (p : Parser σ β) :
    around K rule body p = match body (p.noting (.enter rule p.place.offset)) with
      | (.ok value, q) => (.ok value, q.noting (.leave rule (K.describe value)))
      | (.error (.failed e), q) => (.error (.failed e), q.noting (.fail rule e))
      | (.error .unfinished, q) => (.error .unfinished, q) := by
  change (observing body >>= report K rule) (p.noting (.enter rule p.place.offset)) = _
  rw [bind_apply, observing_apply]
  rcases body (p.noting (.enter rule p.place.offset)) with ⟨(e | _) | value, q⟩
  all_goals rfl

theorem around_of_error
    (out : body (p.noting (.enter rule p.place.offset)) = (.error (.failed e), q)) :
    around K rule body p = (.error (.failed e), q.noting (.fail rule e)) := by
  rw [around_apply, out]

theorem around_of_ok (out : body (p.noting (.enter rule p.place.offset)) = (.ok result, q)) :
    around K rule body p = (.ok result, q.noting (.leave rule (K.describe result))) := by
  rw [around_apply, out]

theorem around_congr (body body' : Action σ β α)
    (same : body (p.noting (.enter rule p.place.offset)) =
      body' (p.noting (.enter rule p.place.offset))) :
    around K rule body p = around K rule body' p := by
  rw [around_apply, around_apply, same]

variable {call : Call α → Action σ β α}

theorem group_of_tooDeep (deep : limitError? limit p = some e) :
    group limit call p = (.error (.failed e), p) := by
  rw [group]
  exact bind_of_error _ (by rw [raise_apply, deep])

theorem group_of_end (shallow : limitError? limit p = none) (ahead : p.place.rest = ['(']) :
    group limit call p =
      (.error (.failed (.inputEnds (p.place.offset + '('.utf8Size))), p.raised.past '(' []) := by
  have up : raise limit p = (.ok (), p.raised) := by rw [raise_apply, shallow]
  have taken : take '(' p.raised = (.ok (), p.raised.past '(' []) := take_apply ahead
  rw [group, bind_of_ok _ up]
  exact (bind_of_ok _ taken).trans rfl

theorem group_of_more (shallow : limitError? limit p = none) (ahead : p.place.rest = '(' :: rest)
    (more : rest ≠ []) :
    group limit call p = (do
      let inner ← call .regex
      if ← nextIs ')' then
        take ')'
        lower
        return inner
      else fail (.unterminatedGroup p.place.offset (← here))) (p.raised.past '(' rest) := by
  have up : raise limit p = (.ok (), p.raised) := by rw [raise_apply, shallow]
  have taken : take '(' p.raised = (.ok (), p.raised.past '(' rest) := take_apply ahead
  rw [group, bind_of_ok _ up]
  cases rest with
  | nil => contradiction
  | cons c rest => exact (bind_of_ok _ taken).trans rfl

theorem primitive_of_end (ends : p.place.rest = []) :
    primitive K p = (.error (.failed (.inputEnds p.place.offset)), p) := by
  have none : takeNext p = (.error (.failed (.inputEnds p.place.offset)), p) := by
    rw [takeNext_apply, Cursor.next, ends]
  change (takeNext >>= _) p = _
  exact bind_of_error _ none

theorem primitive_of_next (ahead : p.place.rest = c :: rest) :
    primitive K p = (if c ≠ emptyMark ∧ ¬isSymbol c then
        fail (.unexpected .symbol (some c) p.place.offset)
      else construct K (.primitive c) (K.primitive c)) (p.past c rest) := by
  have taken : takeNext p = (.ok c, p.past c rest) := by
    rw [takeNext_apply, Cursor.next, ahead]
    rfl
  change (takeNext >>= _) p = _
  exact bind_of_ok _ taken

end Laws

/-- What holds of a value and of the state behind it, and what where there is none. -/
def Ends (Q : γ → Parser σ β → Prop) (E : Halt → Parser σ β → Prop) :
    Except Halt γ × Parser σ β → Prop
  | (.ok value, q) => Q value q
  | (.error halt, q) => E halt q

section Ends

variable {Q Q' : α → Parser σ β → Prop} {E E' : Halt → Parser σ β → Prop}
  {out : Except Halt α × Parser σ β}
  {first : Action σ β γ} {next : γ → Action σ β α} {rule : Rule} {body : Action σ β α}
  {call : Call α → Action σ β α} {done : List α} {value : α}

theorem Ends.imp (h : Ends Q E out) (ok : ∀ v q, Q v q → Q' v q)
    (halted : ∀ halt q, E halt q → E' halt q) : Ends Q' E' out := by
  rcases out with ⟨halt | v, q⟩
  · exact halted halt q h
  · exact ok v q h

theorem Ends.state {P : Parser σ β → Prop} (h : Ends (fun _ => P) (fun _ => P) out) : P out.2 := by
  rcases out with ⟨halt | v, q⟩
  · exact h
  · exact h

theorem Ends.bind (h : Ends (fun v q => Ends Q E (next v q)) E (first p)) :
    Ends Q E ((first >>= next) p) := by
  rw [bind_apply]
  generalize first p = out at h
  rcases out with ⟨halt | v, q⟩
  · exact h
  · exact h

theorem ends_around (h : Ends (fun v q => Q v (q.noting (.leave rule (K.describe v))))
    (fun halt q => (halt = .unfinished → E halt q) ∧
      ∀ e, halt = .failed e → E halt (q.noting (.fail rule e)))
    (body (p.noting (.enter rule p.place.offset)))) : Ends Q E (around K rule body p) := by
  rw [around_apply]
  generalize body (p.noting (.enter rule p.place.offset)) = out at h
  rcases out with ⟨(e | _) | v, q⟩
  · exact h.2 e rfl
  · exact h.1 rfl
  · exact h

theorem ends_join {I : Nat → Parser σ β → Prop}
    (step : ∀ n p x y, I (n + 1) p → I n (p.building K .union (K.union x y)))
    (h : I done.length p) : Ends (fun _ => I 0) E (join K done value p) := by
  induction done generalizing value p with
  | nil => exact h
  | cons branch done ih =>
    rw [join, bind_of_ok _ (construct_apply _ _ _)]
    exact ih (step _ _ _ _ h)

theorem ends_branches (h : Ends (fun v q =>
      (∀ rest, q.place.rest = '|' :: rest →
        Ends Q E (call (.branches (K.stamp v :: done)) (q.past '|' rest))) ∧
      Ends Q E (join K done (K.stamp v) q)) E (call .term p)) :
    Ends Q E (rules K limit call (.branches done) p) := by
  rw [rules]
  refine Ends.bind (h.imp ?_ fun _ _ => id)
  rintro v q ⟨bar, last⟩
  rw [ifNext_apply]
  split
  · rename_i ahead
    obtain ⟨rest, ahead⟩ := nextIs_iff.mp ahead
    rw [bind_of_ok _ (take_apply ahead)]
    exact bar rest ahead
  · exact last

theorem ends_factors (stop : Q value p) (h : ¬TermEnds p.place → Ends (fun v q =>
      Ends Q E (call (.factors (K.concatenate value v))
        (q.building K .concatenate fun s => (K.concatenate value v, s)))) E (call .factor p)) :
    Ends Q E (rules K limit call (.factors value) p) := by
  rw [rules, atTermEnd_apply]
  split
  · exact stop
  · rename_i goes
    exact Ends.bind ((h goes).imp (fun v q later => later) fun _ _ => id)

theorem ends_stars (stop : Q value p) (h : ∀ rest, p.place.rest = '*' :: rest →
      Ends Q E (call (.stars (K.repetition value p.supply).1)
        ((p.past '*' rest).building K .repetition (K.repetition value)))) :
    Ends Q E (rules K limit call (.stars value) p) := by
  rw [rules, ifNext_apply]
  split
  · rename_i ahead
    obtain ⟨rest, ahead⟩ := nextIs_iff.mp ahead
    rw [bind_of_ok _ (take_apply ahead)]
    exact h rest ahead
  · exact stop

theorem ends_group (ahead : p.place.rest = '(' :: rest) (deep : ∀ e, E (.failed e) p)
    (inside : limitError? limit p = none → (∀ e, E (.failed e) (p.raised.past '(' rest)) ∧
      Ends (fun v q => (∀ behind, q.place.rest = ')' :: behind → Q v (q.past ')' behind).lowered) ∧
        ∀ e, E (.failed e) q) E (call .regex (p.raised.past '(' rest))) :
    Ends Q E (group limit call p) := by
  cases limited : limitError? limit p with
  | some e =>
    rw [group_of_tooDeep limited]
    exact deep e
  | none =>
    obtain ⟨ends, inner⟩ := inside limited
    by_cases more : rest = []
    · subst more
      rw [group_of_end limited ahead]
      exact ends _
    · rw [group_of_more limited ahead more]
      refine Ends.bind (inner.imp ?_ fun _ _ => id)
      rintro v q ⟨closed, unclosed⟩
      rw [ifNext_apply]
      split
      · rename_i closing
        obtain ⟨behind, closing⟩ := nextIs_iff.mp closing
        rw [bind_of_ok _ (take_apply closing)]
        exact closed behind closing
      · exact unclosed _

theorem ends_primitive (ends : ∀ e, E (.failed e) p) (h : ∀ c rest, p.place.rest = c :: rest →
      Q (K.primitive c p.supply).1 ((p.past c rest).building K (.primitive c) (K.primitive c)) ∧
      ∀ e, E (.failed e) (p.past c rest)) : Ends Q E (primitive K p) := by
  cases ahead : p.place.rest with
  | nil =>
    rw [primitive_of_end ahead]
    exact ends _
  | cons c rest =>
    obtain ⟨built, stuck⟩ := h c rest ahead
    rw [primitive_of_next ahead]
    split
    · exact stuck _
    · exact built

theorem ends_base (grouped : ∀ rest, p.place.rest = '(' :: rest → Ends Q E (group limit call p))
    (single : (∀ rest, p.place.rest ≠ '(' :: rest) → Ends Q E (primitive K p)) :
    Ends Q E ((do if ← nextIs '(' then group limit call else primitive K) p) := by
  rw [ifNext_apply]
  split
  · rename_i opening
    obtain ⟨rest, ahead⟩ := nextIs_iff.mp opening
    exact grouped rest ahead
  · rename_i opening
    exact single fun rest ahead => opening (nextIs_iff.mpr ⟨rest, ahead⟩)

end Ends

variable (K limit) in
/-- What holds of calls without any time, and of a call if it holds of the calls in it, holds of
    calls with any time. -/
theorem run_induct {motive : (Call α → Action σ β α) → Prop}
    (zero : motive fun _ => throw .unfinished)
    (succ : ∀ call, motive call → motive (rules K limit call)) (clock : Nat) :
    motive (run K limit clock) := by
  induction clock with
  | zero => exact zero
  | succ clock ih => exact succ _ ih

theorem root_state (clock : Nat) (p : Parser σ β) :
    (root K limit clock p).2 = (run K limit clock .regex p).2 := by
  rw [root, bind_apply]
  rcases run K limit clock .regex p with ⟨halt | v, q⟩
  · rfl
  -- What is left over is only looked at.
  · obtain ⟨⟨offset, rest⟩, _, _, _⟩ := q
    cases rest with
    | nil => rfl
    | cons c rest => rfl

/-- How an operation is carried out. -/
inductive Makes (K : Construction σ α β) : Operation → (σ → α × σ) → Prop where
  | empty : Makes K .empty K.empty
  | primitive (c : Char) : Makes K (.primitive c) (K.primitive c)
  | concatenate (x y : α) : Makes K .concatenate fun s => (K.concatenate x y, s)
  | union (x y : α) : Makes K .union (K.union x y)
  | repetition (x : α) : Makes K .repetition (K.repetition x)

/-- No step of the parser breaks the property. -/
structure Kept (K : Construction σ α β) (limit : Option UInt32) (P : Parser σ β → Prop) : Prop where
  noting : ∀ p event, event.OfRule → P p → P (p.noting event)
  past : ∀ p c rest, p.place.rest = c :: rest → P p → P (p.past c rest)
  raised : ∀ p, limitError? limit p = none → P p → P p.raised
  lowered : ∀ p, P p → P p.lowered
  building : ∀ p op make, Makes K op make → P p → P (p.building K op make)

section Kept

variable {P : Parser σ β → Prop} {call : Call α → Action σ β α}

theorem Kept.around (kept : Kept K limit P) {rule : Rule} {body : Action σ β α}
    (h : P p) (inner : ∀ q, P q → Ends (fun _ => P) (fun _ => P) (body q)) :
    Ends (fun _ => P) (fun _ => P) (around K rule body p) :=
  ends_around ((inner _ (kept.noting p (.enter rule _) trivial h)).imp
    (fun v q => kept.noting q (.leave rule (K.describe v)) trivial)
    fun _ q here => ⟨fun _ => here, fun e _ => kept.noting q (.fail rule e) trivial here⟩)

theorem Kept.rules (kept : Kept K limit P)
    (calls : ∀ c p, P p → Ends (fun _ => P) (fun _ => P) (call c p)) (c : Call α) (p : Parser σ β)
    (h : P p) : Ends (fun _ => P) (fun _ => P) (rules K limit call c p) := by
  cases c with
  | regex => exact kept.around h fun q => calls _ q
  | branches done =>
    refine ends_branches ((calls _ p h).imp (fun v q here => ⟨?_, ?_⟩) fun _ _ => id)
    · exact fun rest ahead => calls _ _ (kept.past q _ rest ahead here)
    · exact ends_join (I := fun _ => P) (fun _ p x y => kept.building p _ _ (.union x y)) here
  | term => exact kept.around h fun q here => calls _ _ (kept.building q _ _ .empty here)
  | factors value =>
    exact ends_factors h fun _ => (calls _ p h).imp
      (fun v q here => calls _ _ (kept.building q _ _ (.concatenate value v) here)) fun _ _ => id
  | factor =>
    exact kept.around h fun q here =>
      Ends.bind ((calls _ q here).imp (fun _ => calls _) fun _ _ => id)
  | stars value =>
    exact ends_stars h fun rest ahead => calls _ _ (kept.building _ _ _ (.repetition value)
      (kept.past p _ rest ahead h))
  | base =>
    refine kept.around h fun q here => ends_base (fun rest ahead => ?_) fun _ => ?_
    · refine ends_group ahead (fun _ => here) fun shallow => ?_
      have inside := kept.past q.raised '(' rest ahead (kept.raised q shallow here)
      refine ⟨fun _ => inside, (calls _ _ inside).imp (fun v q' back =>
        ⟨fun behind closing => ?_, fun _ => back⟩) fun _ _ => id⟩
      exact kept.lowered _ (kept.past q' _ behind closing back)
    · refine ends_primitive (fun _ => here) fun c rest ahead => ?_
      have moved := kept.past q c rest ahead here
      exact ⟨kept.building _ _ _ (.primitive c) moved, fun _ => moved⟩

variable (K limit) in
/-- What no step breaks is kept by every call. -/
theorem Kept.run (kept : Kept K limit P) (clock : Nat) (c : Call α) (h : P p) :
    Ends (fun _ => P) (fun _ => P) (run K limit clock c p) :=
  run_induct K limit (motive := fun call => ∀ c p, P p → Ends (fun _ => P) (fun _ => P) (call c p))
    (fun _ _ => id) (fun _ => kept.rules) clock c p h

end Kept

end Parser

end Thompson
