import Mathlib.Data.String.Basic
import Thompson.Proofs.Pattern.Actions
import Thompson.Proofs.Pattern.Tracing

/-!
Where the parser stands in the text. It only ever moves forward, over the characters ahead, however
a call ends; a factor moves it past one character at least. Where a rule is entered is settled by
what was told last: an alternation begins at the beginning of the text or right behind the
parenthesis of its base, a term where its alternation begins or right behind the bar after the term
before it.
-/
namespace Thompson

open String (utf8Len)

variable {σ α β : Type}

def CharAt (text : List Char) (offset : Nat) (c : Char) : Prop :=
  ∃ u v, text = u ++ c :: v ∧ utf8Len u = offset

namespace Cursor

/-- From one place to the other some of the characters ahead are consumed, one after the other. -/
def Moves (k k' : Cursor) : Prop :=
  ∃ w, k.rest = w ++ k'.rest ∧ k'.offset = k.offset + utf8Len w

namespace Moves

variable {k k' : Cursor} {c : Char} {text rest : List Char}

theorem refl (k : Cursor) : Moves k k := ⟨[], rfl, rfl⟩

theorem past (h : Moves k k') (ahead : k'.rest = c :: rest) :
    Moves k ⟨k'.offset + c.utf8Size, rest⟩ := by
  obtain ⟨w, same, size⟩ := h
  refine ⟨w ++ [c], ?_, ?_⟩
  · rw [same, ahead, List.append_assoc]
    rfl
  · rw [size, String.utf8Len_append, Nat.add_assoc, String.utf8Len_cons, String.utf8Len_nil,
      Nat.zero_add]

theorem offset_le (h : Moves k k') : k.offset ≤ k'.offset := by
  obtain ⟨w, _, size⟩ := h
  omega

theorem charAt (h : Moves (ofText text) k) (ahead : k.rest = c :: rest) :
    CharAt text k.offset c := by
  obtain ⟨w, same, size⟩ := h
  refine ⟨w, rest, ahead ▸ same, ?_⟩
  rw [size, ofText, Nat.zero_add]

end Moves

end Cursor

def Rule.BeginsAt (text : List Char) (log : List (Moment σ β)) : Rule → Nat → Prop
  | .regex, offset => log = [] ∧ offset = 0 ∨ ∃ m opened, log.getLast? = some m ∧
      m.event = .enter .base opened ∧ CharAt text opened '(' ∧ offset = opened + 1
  | .term, offset => ∃ m, log.getLast? = some m ∧ (m.event = .enter .regex offset ∨
      ∃ result, m.event = .leave .term result ∧ CharAt text m.consumed '|' ∧
        offset = m.consumed + 1)
  | .factor, _ | .base, _ => True

/-- A rule is entered where the parser stands, and there it begins. -/
def Announced (text : List Char) (before : List (Moment σ β)) (m : Moment σ β) : Prop :=
  ∀ rule offset, m.event = .enter rule offset →
    m.consumed = offset ∧ Rule.BeginsAt text before rule offset

namespace Parser

variable {K : Construction σ α β} {limit : Option UInt32} {text rest : List Char} {c : Char}
  {p : Parser σ β} {call : Call α → Action σ β α} {rule : Rule}

section Moves

theorem kept_moves (k : Cursor) : Kept K limit (fun p : Parser σ β => k.Moves p.place) where
  noting _ _ _ h := h
  past _ _ _ ahead h := h.past ahead
  raised _ _ h := h
  lowered _ h := h
  building _ _ _ _ h := h

variable (K limit) in
theorem run_moves (clock : Nat) (c : Call α) (p : Parser σ β) :
    Ends (fun _ q => p.place.Moves q.place) (fun _ q => p.place.Moves q.place)
      (run K limit clock c p) :=
  (kept_moves p.place).run K limit clock c (.refl _)

def Consumes (p : Parser σ β) : Except Halt α × Parser σ β → Prop :=
  Ends (fun _ q => p.place.offset < q.place.offset) fun _ _ => True

theorem Consumes.around {body : Action σ β α}
    (h : Consumes p (body (p.noting (.enter rule p.place.offset)))) :
    Consumes p (around K rule body p) :=
  ends_around (h.imp (fun _ _ => id) fun _ _ _ => ⟨fun _ => trivial, fun _ _ => trivial⟩)

theorem base_consumes (clock : Nat) (p : Parser σ β) :
    Consumes p (run K limit clock .base p) := by
  cases clock with
  | zero => exact trivial
  | succ clock =>
    refine Consumes.around (ends_base (fun rest ahead => ?_) fun _ => ?_)
    · refine ends_group ahead (fun _ => trivial) fun _ => ⟨fun _ => trivial, ?_⟩
      refine (run_moves K limit clock .regex _).imp (fun v q moves => ?_) fun _ _ _ => trivial
      refine ⟨fun behind _ => ?_, fun _ => trivial⟩
      have opened : p.place.offset + '('.utf8Size ≤ q.place.offset := moves.offset_le
      have size := Char.utf8Size_pos '('
      change p.place.offset < q.place.offset + ')'.utf8Size
      omega
    · refine ends_primitive (fun _ => trivial) fun c rest _ => ⟨?_, fun _ => trivial⟩
      exact Nat.lt_add_of_pos_right (Char.utf8Size_pos c)

variable (K limit) in
theorem factor_consumes (clock : Nat) (p : Parser σ β) :
    Consumes p (run K limit clock .factor p) := by
  cases clock with
  | zero => exact trivial
  | succ clock =>
    refine Consumes.around (Ends.bind ((base_consumes clock _).imp (fun v q behind => ?_)
      fun _ _ => id))
    refine (run_moves K limit clock (.stars v) q).imp (fun _ _ moves => ?_) fun _ _ _ => trivial
    exact Nat.lt_of_lt_of_le behind moves.offset_le

end Moves

section Announcing

/-- The parser stands somewhere in the text, and every rule was entered where it may begin. -/
structure Sound (text : List Char) (p : Parser σ β) : Prop where
  place : (Cursor.ofText text).Moves p.place
  always : Always (Announced text) p.log

def Left (rule : Rule) (p : Parser σ β) : Prop :=
  ∃ m result, p.log.getLast? = some m ∧ m.event = .leave rule result ∧
    m.consumed = p.place.offset

namespace Sound

theorem entering (h : Sound text p) (begins : Rule.BeginsAt text p.log rule p.place.offset) :
    Sound text (p.noting (.enter rule p.place.offset)) := by
  refine ⟨h.place, h.always.concat ?_⟩
  rintro _ _ ⟨⟩
  exact ⟨rfl, begins⟩

theorem telling (h : Sound text p) {event : Event β} (other : event.isEntry = false) :
    Sound text (p.noting event) := by
  refine ⟨h.place, h.always.concat ?_⟩
  rintro rule offset rfl
  contradiction

theorem building (h : Sound text p) (op : Operation) (make : σ → α × σ) :
    Sound text (p.building K op make) := by
  have supplied : Sound text { p with supply := (make p.supply).2 } := ⟨h.place, h.always⟩
  exact supplied.telling rfl

theorem past (h : Sound text p) (ahead : p.place.rest = c :: rest) :
    Sound text (p.past c rest) :=
  ⟨h.place.past ahead, h.always⟩

theorem around (rule : Rule) {body : Action σ β α} (h : Sound text p)
    (begins : Rule.BeginsAt text p.log rule p.place.offset)
    (inner : ∀ q, q = p.noting (.enter rule p.place.offset) → Sound text q →
      Ends (fun _ => Sound text) (fun _ => Sound text) (body q)) :
    Ends (fun _ q => Sound text q ∧ Left rule q) (fun _ => Sound text) (around K rule body p) := by
  refine ends_around ((inner _ rfl (h.entering begins)).imp (fun v q here => ⟨here.telling rfl, ?_⟩)
    fun _ q here => ⟨fun _ => here, fun _ _ => here.telling rfl⟩)
  exact ⟨_, _, List.getLast?_concat, rfl, rfl⟩

end Sound

def Call.Before (text : List Char) (p : Parser σ β) : Call α → Prop
  | .regex => Rule.BeginsAt text p.log .regex p.place.offset
  | .branches _ | .term => Rule.BeginsAt text p.log .term p.place.offset
  | _ => True

def Call.After (p : Parser σ β) : Call α → Prop
  | .term => Left .term p
  | _ => True

def Announces (text : List Char) (call : Call α → Action σ β α) : Prop :=
  ∀ c p, Sound text p → c.Before text p →
    Ends (fun _ q => Sound text q ∧ c.After q) (fun _ => Sound text) (call c p)

theorem Announces.sound (announces : Announces text call) (c : Call α) (h : Sound text p)
    (before : c.Before text p) :
    Ends (fun _ => Sound text) (fun _ => Sound text) (call c p) :=
  (announces c p h before).imp (fun _ _ here => here.1) fun _ _ => id

theorem announces_branches {done : List α} (announces : Announces text call) (h : Sound text p)
    (before : Rule.BeginsAt text p.log .term p.place.offset) :
    Ends (fun _ => Sound text) (fun _ => Sound text) (rules K limit call (.branches done) p) := by
  refine ends_branches ((announces .term p h before).imp (fun v q here => ?_) fun _ _ => id)
  -- If there is a bar, the term before it was left just now.
  obtain ⟨sound, m, result, last, left, stands⟩ := here
  refine ⟨fun rest ahead => ?_, ?_⟩
  · refine announces.sound (.branches _) (sound.past ahead) ⟨m, last, .inr ⟨result, left, ?_, ?_⟩⟩
    · exact stands ▸ sound.place.charAt ahead
    · rw [stands]
      rfl
  · exact ends_join (I := fun _ => Sound text) (fun _ _ _ _ here => here.building _ _) sound

theorem announces_base (announces : Announces text call) (h : Sound text p)
    (entered : ∃ m, p.log.getLast? = some m ∧ m.event = .enter .base p.place.offset) :
    Ends (fun _ => Sound text) (fun _ => Sound text)
      ((do if ← nextIs '(' then group limit call else primitive K) p) := by
  refine ends_base (fun rest ahead => ?_) fun _ => ?_
  · refine ends_group ahead (fun _ => h) fun _ => ?_
    obtain ⟨m, last, event⟩ := entered
    have inside : Sound text (p.raised.past '(' rest) :=
      ⟨h.place.past ahead, h.always⟩
    have begins : Rule.BeginsAt text p.log .regex (p.place.offset + 1) :=
      .inr ⟨m, _, last, event, h.place.charAt ahead, rfl⟩
    refine ⟨fun _ => inside, (announces.sound .regex inside begins).imp (fun v q back => ?_)
      fun _ _ => id⟩
    refine ⟨fun behind closing => ?_, fun _ => back⟩
    exact ⟨back.place.past closing, back.always⟩
  · refine ends_primitive (fun _ => h) fun c rest ahead => ?_
    exact ⟨(h.past ahead).building _ _, fun _ => h.past ahead⟩

theorem announces_rules (announces : Announces text call) :
    Announces text (rules K limit call) := by
  intro c p h before
  cases c with
  | regex =>
    refine (h.around .regex before fun q same here => announces.sound (.branches []) here ?_).imp
      (fun _ _ back => ⟨back.1, trivial⟩) fun _ _ => id
    subst same
    exact ⟨_, List.getLast?_concat, .inl rfl⟩
  | branches done =>
    exact (announces_branches announces h before).imp (fun _ _ back => ⟨back, trivial⟩)
      fun _ _ => id
  | term =>
    exact h.around .term before fun q _ here =>
      announces.sound (.factors _) (here.building .empty K.empty) trivial
  | factors value =>
    refine ends_factors ⟨h, trivial⟩ fun _ => (announces .factor p h trivial).imp
      (fun v q here => ?_) fun _ _ => id
    exact announces (.factors _) _ (here.1.building _ _) trivial
  | factor =>
    refine (h.around .factor trivial fun q _ here => Ends.bind ?_).imp
      (fun _ _ back => ⟨back.1, trivial⟩) fun _ _ => id
    exact (announces.sound .base here trivial).imp
      (fun v _ back => announces.sound (.stars v) back trivial) fun _ _ => id
  | stars value =>
    refine ends_stars ⟨h, trivial⟩ fun rest ahead => ?_
    exact announces (.stars _) _ ((h.past ahead).building _ _) trivial
  | base =>
    refine (h.around .base trivial fun q same here => announces_base announces here ?_).imp
      (fun _ _ back => ⟨back.1, trivial⟩) fun _ _ => id
    subst same
    exact ⟨_, List.getLast?_concat, rfl⟩

variable (K limit) in
theorem announced_of_run (s : σ) (text : List Char) (clock : Nat) :
    Always (Announced text) (run K limit clock .regex (start s text)).2.log := by
  have announces : Announces text (run K limit clock) :=
    run_induct K limit (motive := Announces text) (fun _ _ h _ => h) (fun _ => announces_rules)
      clock
  have begun : Sound text (start s text : Parser σ β) := ⟨.refl _, always_nil _⟩
  exact (announces.sound .regex begun (.inl ⟨rfl, rfl⟩)).state.always

end Announcing

end Parser

end Thompson
