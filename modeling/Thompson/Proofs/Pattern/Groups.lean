import Mathlib.Data.String.Basic
import Thompson.Proofs.Pattern.Actions
import Thompson.Proofs.Pattern.Tracing

/-!
Groups that are open while a pattern is parsed, and rules that are active. The count of open groups
is what the parentheses consumed say, as long as they fit into a machine word. Around each open group
four rules are active, and in the innermost one up to four more: a base that opens no group has no
rule inside. A group that fails stays open, but the rules around it end.
-/
namespace Thompson

open String (utf8Len)
open Descent (TermEnds termEnds_iff)

variable {σ α β : Type}

def OpenAt (text : List Char) (consumed groups : Nat) : Prop :=
  ∃ u v, text = u ++ v ∧ utf8Len u = consumed ∧ u.count '(' = u.count ')' + groups

def Cursor.OpenIn (text : List Char) (groups : Nat) (k : Cursor) : Prop :=
  ∃ u, text = u ++ k.rest ∧ utf8Len u = k.offset ∧ u.count '(' = u.count ')' + groups

theorem Cursor.OpenIn.openAt {text : List Char} {groups : Nat} {k : Cursor}
    (h : k.OpenIn text groups) : OpenAt text k.offset groups := by
  obtain ⟨u, same, size, count⟩ := h
  exact ⟨u, _, same, size, count⟩

theorem Cursor.OpenIn.next {text rest : List Char} {groups groups' : Nat} {k : Cursor} {c : Char}
    (h : k.OpenIn text groups) (ahead : k.rest = c :: rest)
    (count : groups + [c].count '(' = groups' + [c].count ')') :
    OpenIn text groups' ⟨k.offset + c.utf8Size, rest⟩ := by
  obtain ⟨u, same, size, before⟩ := h
  refine ⟨u ++ [c], ?_, ?_, ?_⟩
  · rw [same, ahead, List.append_assoc]
    rfl
  · rw [String.utf8Len_append, size, String.utf8Len_cons, String.utf8Len_nil, Nat.zero_add]
  · rw [List.count_append, List.count_append]
    omega

def entered (log : List (Moment σ β)) : Nat := log.countP fun m => m.event.isEntry

def ended (log : List (Moment σ β)) : Nat := log.countP fun m => m.event.isEnd

@[simp] theorem entered_concat (log : List (Moment σ β)) (m : Moment σ β) :
    entered (log ++ [m]) = entered log + m.event.isEntry.toNat := by
  cases h : m.event.isEntry <;> simp [entered, h]

@[simp] theorem ended_concat (log : List (Moment σ β)) (m : Moment σ β) :
    ended (log ++ [m]) = ended log + m.event.isEnd.toNat := by
  cases h : m.event.isEnd <;> simp [ended, h]

/-- At a moment as many groups are open as the parentheses consumed say, and no more rules are
    active than they and the rules inside of them take. -/
def Placed (text : List Char) (before : List (Moment σ β)) (m : Moment σ β) : Prop :=
  OpenAt text m.consumed m.depth.toNat ∧
    entered (before ++ [m]) ≤ ended (before ++ [m]) + 4 * (m.depth.toNat + 1)

namespace Parser

variable {K : Construction σ α β} {limit : Option UInt32} {text rest : List Char}
  {groups level : Nat} {p q : Parser σ β} {call : Call α → Action σ β α} {rule : Rule} {c : Char}

/-- The parser is inside that many groups at least, with so many rules active in the innermost of
    them. -/
structure Inside (text : List Char) (groups level : Nat) (p : Parser σ β) : Prop where
  place : p.place.OpenIn text p.depth.toNat
  least : groups ≤ p.depth.toNat
  active : entered p.log = ended p.log + 4 * groups + level
  always : Always (Placed text) p.log

structure Exactly (text : List Char) (groups level : Nat) (p : Parser σ β) : Prop
    extends Inside text groups level p where
  depth : p.depth.toNat = groups

namespace Inside

theorem noting {event : Event β} {level' : Nat} (h : Inside text groups level p)
    (active : level + event.isEntry.toNat = level' + event.isEnd.toNat) (few : level' ≤ 4) :
    Inside text groups level' (p.noting event) := by
  have least := h.least
  have before := h.active
  refine ⟨h.place, h.least, ?_, h.always.concat ⟨h.place.openAt, ?_⟩⟩
  · simp only [Parser.noting, entered_concat, ended_concat]
    omega
  · simp only [entered_concat, ended_concat]
    omega

theorem past (h : Inside text groups level p) (ahead : p.place.rest = c :: rest)
    (notOpen : c ≠ '(') (notClose : c ≠ ')') : Inside text groups level (p.past c rest) := by
  have count : p.depth.toNat + [c].count '(' = p.depth.toNat + [c].count ')' := by
    simp [notOpen, notClose]
  exact ⟨h.place.next ahead count, h.least, h.active, h.always⟩

theorem outward (h : Inside text (groups + 1) 0 p) : Inside text groups 4 p := by
  have active := h.active
  refine ⟨h.place, Nat.le_of_succ_le h.least, ?_, h.always⟩
  omega

end Inside

namespace Exactly

theorem noting {event : Event β} {level' : Nat} (h : Exactly text groups level p)
    (active : level + event.isEntry.toNat = level' + event.isEnd.toNat) (few : level' ≤ 4) :
    Exactly text groups level' (p.noting event) :=
  ⟨h.toInside.noting active few, h.depth⟩

theorem past (h : Exactly text groups level p) (ahead : p.place.rest = c :: rest)
    (notOpen : c ≠ '(') (notClose : c ≠ ')') : Exactly text groups level (p.past c rest) :=
  ⟨h.toInside.past ahead notOpen notClose, h.depth⟩

theorem building {op : Operation} {make : σ → α × σ} (h : Exactly text groups level p)
    (few : level ≤ 4) : Exactly text groups level (p.building K op make) := by
  have supplied : Exactly text groups level { p with supply := (make p.supply).2 } :=
    ⟨⟨h.place, h.least, h.active, h.always⟩, h.depth⟩
  exact supplied.noting rfl few

theorem opening (h : Exactly text groups 4 p) (countable : text.count '(' < UInt32.size)
    (ahead : p.place.rest = '(' :: rest) : Exactly text (groups + 1) 0 (p.raised.past '(' rest) := by
  obtain ⟨u, same, _, count⟩ := h.place
  have active := h.active
  have total : text.count '(' = u.count '(' + (rest.count '(' + 1) := by
    rw [same, ahead, List.count_append, List.count_cons_self]
  -- All parentheses of the text fit into a machine word, so the count does not wrap around.
  have more : p.raised.depth.toNat = p.depth.toNat + 1 := toNat_raised (by omega)
  have exact : p.raised.depth.toNat = groups + 1 := by rw [more, h.depth]
  refine ⟨⟨h.place.next ahead more.symm, exact.ge, ?_, h.always⟩, exact⟩
  simp only [Parser.past, raised]
  omega

theorem closing (h : Exactly text (groups + 1) 0 p) (ahead : p.place.rest = ')' :: rest) :
    Exactly text groups 4 (p.past ')' rest).lowered := by
  have active := h.active
  have depth := h.depth
  have less : (p.past ')' rest).lowered.depth.toNat = groups := by
    rw [toNat_lowered]
    exact congrArg (· - 1) depth
  have count : p.depth.toNat = (p.past ')' rest).lowered.depth.toNat + 1 := by rw [depth, less]
  refine ⟨⟨h.place.next ahead count, less.ge, ?_, h.always⟩, less⟩
  simp only [Parser.past, lowered]
  omega

end Exactly

/-- Where there is no value: after a failure the rules inside have ended, but groups stay open. -/
def Halted (text : List Char) (groups level : Nat) : Halt → Parser σ β → Prop
  | .failed _, p => Inside text groups level p
  | .unfinished, p => Always (Placed text) p.log

theorem Exactly.around {body : Action σ β α} (h : Exactly text groups level p) (few : level < 4)
    (inner : ∀ q, q.place = p.place → Exactly text groups (level + 1) q →
      Ends (fun _ => Exactly text groups (level + 1)) (Halted text groups (level + 1)) (body q)) :
    Ends (fun _ => Exactly text groups level) (Halted text groups level) (around K rule body p) := by
  have begun : Exactly text groups (level + 1) (p.noting (.enter rule p.place.offset)) :=
    h.noting rfl few
  have ended := Nat.le_of_lt few
  refine ends_around ((inner (p.noting _) rfl begun).imp (fun v q here => here.noting rfl ended) ?_)
  rintro (e | _) q here
  · refine ⟨fun same => by contradiction, ?_⟩
    rintro _ ⟨⟩
    exact Inside.noting here rfl ended
  · exact ⟨fun _ => here, fun e same => by contradiction⟩

theorem Halted.always {halt : Halt} (h : Halted text groups level halt p) :
    Always (Placed text) p.log := by
  cases halt with
  | failed e => exact Inside.always h
  | unfinished => exact h

theorem Halted.outward {halt : Halt} (h : Halted text (groups + 1) 0 halt p) :
    Halted text groups 4 halt p := by
  cases halt with
  | failed e => exact Inside.outward h
  | unfinished => exact h

/-- How many rules are active where a call begins, counted from the innermost open group. -/
def Call.levels : Call α → Nat
  | .regex => 0
  | .branches _ | .term => 1
  | .factors _ | .factor => 2
  | .stars _ | .base => 3

theorem Call.levels_lt (c : Call α) : c.levels < 4 := by
  cases c with
  | regex | branches | term | factors | factor | stars | base => simp [levels]

def Call.NeedsFactor : Call α → Prop
  | .factor | .base => True
  | _ => False

/-- A call ends in the group and at the level where it began. -/
def Nests (text : List Char) (call : Call α → Action σ β α) : Prop :=
  ∀ c groups p, Exactly text groups c.levels p → (c.NeedsFactor → ¬TermEnds p.place) →
    Ends (fun _ => Exactly text groups c.levels) (Halted text groups c.levels) (call c p)

theorem nests_branches {done : List α} (nests : Nests text call) (h : Exactly text groups 1 p) :
    Ends (fun _ => Exactly text groups 1) (Halted text groups 1)
      (rules K limit call (.branches done) p) := by
  refine ends_branches ((nests .term groups p h (fun none => none.elim)).imp (fun v q here => ?_)
    fun _ _ => id)
  refine ⟨fun rest ahead => ?_, ?_⟩
  · exact nests (.branches _) groups _ (here.past ahead (by decide) (by decide))
      (fun none => none.elim)
  · exact ends_join (I := fun _ => Exactly text groups 1)
      (fun _ _ _ _ inside => inside.building (by decide)) here

theorem nests_group (nests : Nests text call) (countable : text.count '(' < UInt32.size)
    (h : Exactly text groups 4 p) (ahead : p.place.rest = '(' :: rest) :
    Ends (fun _ => Exactly text groups 4) (Halted text groups 4) (group limit call p) := by
  refine ends_group ahead (fun _ => h.toInside) fun _ => ?_
  -- After a failure in the group it stays open, and its rules are counted from around it again.
  have inside := h.opening countable ahead
  refine ⟨fun _ => inside.toInside.outward, ?_⟩
  refine (nests .regex _ _ inside (fun none => none.elim)).imp (fun v q back => ?_)
    fun _ _ => Halted.outward
  exact ⟨fun behind closing => back.closing closing, fun _ => back.toInside.outward⟩

theorem nests_primitive (h : Exactly text groups 4 p) (goes : ¬TermEnds p.place)
    (notOpen : ∀ rest, p.place.rest ≠ '(' :: rest) :
    Ends (fun _ => Exactly text groups 4) (Halted text groups 4) (primitive K p) := by
  simp only [termEnds_iff, not_or, not_exists] at goes
  obtain ⟨_, _, notClose⟩ := goes
  refine ends_primitive (fun _ => h.toInside) fun c rest ahead => ?_
  have moved := h.past ahead (fun opening => notOpen rest (opening ▸ ahead))
    (fun closing => notClose rest (closing ▸ ahead))
  exact ⟨moved.building (by decide), fun _ => moved.toInside⟩

theorem nests_rules (nests : Nests text call) (countable : text.count '(' < UInt32.size) :
    Nests text (rules K limit call) := by
  intro c groups p h goes
  cases c with
  | regex =>
    exact h.around (Call.levels_lt _) fun q _ here =>
      nests (.branches []) groups q here (fun none => none.elim)
  | branches done => exact nests_branches nests h
  | term =>
    exact h.around (Call.levels_lt _) fun q _ here =>
      nests (.factors _) groups _ (here.building (Call.levels_lt _)) (fun none => none.elim)
  | factors value =>
    refine ends_factors h fun goes => (nests .factor groups p h fun _ => goes).imp
      (fun v q here => ?_) fun _ _ => id
    exact nests (.factors _) groups _ (here.building (Nat.le_of_lt (Call.levels_lt _)))
      (fun none => none.elim)
  | factor =>
    refine h.around (Call.levels_lt _) fun q same here => Ends.bind ?_
    refine (nests .base groups q here ?_).imp
      (fun v q' back => nests (.stars v) groups q' back (fun none => none.elim)) fun _ _ => id
    rw [same]
    exact goes
  | stars value =>
    refine ends_stars h fun rest ahead => ?_
    exact nests (.stars _) groups _
      ((h.past ahead (by decide) (by decide)).building (Nat.le_of_lt (Call.levels_lt _)))
      (fun none => none.elim)
  | base =>
    refine h.around (Call.levels_lt _) fun q same here => ?_
    exact ends_base (fun rest ahead => nests_group nests countable here ahead)
      (nests_primitive here (by rw [same]; exact goes trivial))

variable (K limit) in
theorem run_nests (countable : text.count '(' < UInt32.size) (clock : Nat) :
    Nests text (run K limit clock) :=
  run_induct K limit (motive := Nests text) (fun _ _ _ h _ => h.always)
    (fun _ nests => nests_rules nests countable) clock

structure Limited (limit : Option UInt32) (p : Parser σ β) : Prop where
  now : ∀ n, limit = some n → p.depth ≤ n
  always : Always (fun _ m => ∀ n, limit = some n → m.depth ≤ n) p.log

theorem kept_limited : Kept K limit (Limited limit) where
  noting p event _ h := ⟨h.now, h.always.concat h.now⟩
  past p c rest _ h := ⟨h.now, h.always⟩
  raised p shallow h := by
    refine ⟨?_, h.always⟩
    rintro n rfl
    have room : p.depth < n := by simpa [limitError?] using shallow
    have most := n.toNat_lt_size
    rw [UInt32.lt_iff_toNat_lt] at room
    rw [UInt32.le_iff_toNat_le, toNat_raised (by omega)]
    exact room
  lowered p h := by
    refine ⟨?_, h.always⟩
    intro n limited
    have now := UInt32.le_iff_toNat_le.mp (h.now n limited)
    rw [UInt32.le_iff_toNat_le, toNat_lowered]
    omega
  building p op make _ h := ⟨h.now, h.always.concat h.now⟩

variable (K limit) in
theorem placed_of_run (s : σ) (countable : text.count '(' < UInt32.size) (clock : Nat) :
    Always (fun before m => Placed text before m ∧ ∀ n, limit = some n → m.depth ≤ n)
      (run K limit clock .regex (start s text)).2.log := by
  have begun : Exactly text 0 0 (start s text : Parser σ β) :=
    ⟨⟨⟨[], rfl, rfl, rfl⟩, Nat.zero_le _, rfl, always_nil _⟩, rfl⟩
  have nested := run_nests K limit countable clock .regex 0 _ begun (fun none => none.elim)
  have limited : Limited limit (start s text : Parser σ β) :=
    ⟨fun n _ => UInt32.zero_le, always_nil _⟩
  have within := (kept_limited.run K limit clock .regex limited).state
  intro before m after split
  have placed := (nested.imp (fun _ _ here => here.always) fun _ _ => Halted.always).state
  exact ⟨placed before m after split, within.always before m after split⟩

end Parser

end Thompson
