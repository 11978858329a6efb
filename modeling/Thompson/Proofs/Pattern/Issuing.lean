import Thompson.Proofs.Fragment.Names
import Thompson.Proofs.Pattern.Actions
import Thompson.Proofs.Pattern.NameCount

/-!
The names that are handed out while a pattern is parsed. A term takes two before it consumes
anything, so an alternation owes the two of its first term; a character pays for the names of what
is built with it, and a bar for those of the next term and of the union that is made of both much
later. Until then the union is owed. With that there are never more than three names for each byte
consumed, and two.
-/
namespace Thompson

variable {σ α β : Type}

/-- So many names, one after the other, and the supply behind them. -/
def NameSupply.draw : Nat → NameSupply → List State × NameSupply
  | 0, names => ([], names)
  | n + 1, names =>
    let (first, later) := names.fresh
    let (others, last) := draw n later
    (first :: others, last)

namespace NameSupply

variable {names : NameSupply} {m n : Nat}

theorem draw_add (m n : Nat) (names : NameSupply) :
    (draw (m + n) names).2 = (draw n (draw m names).2).2 := by
  induction m generalizing names with
  | zero => rw [Nat.zero_add]; rfl
  | succ m ih =>
    rw [Nat.succ_add]
    exact ih names.fresh.2

theorem toNat_issued_draw (room : names.HasRoom n) :
    (draw n names).2.issued.toNat = names.issued.toNat + n := by
  induction n generalizing names with
  | zero => rfl
  | succ n ih =>
    have first := toNat_issued_fresh (room.mono (Nat.le_add_left 1 n))
    have others := ih room.fresh
    simp only [draw]
    omega

theorem le_of_mem_draw (room : names.HasRoom n) :
    ∀ s ∈ (draw n names).1, names.issued.toNat ≤ s.index.toNat := by
  induction n generalizing names with
  | zero => simp [draw]
  | succ n ih =>
    have first := toNat_issued_fresh (room.mono (Nat.le_add_left 1 n))
    intro s member
    rcases List.mem_cons.mp member with rfl | later
    · exact Nat.le_refl _
    · have := ih room.fresh s later
      omega

theorem nodup_draw (room : names.HasRoom n) : (draw n names).1.Nodup := by
  induction n generalizing names with
  | zero => exact List.nodup_nil
  | succ n ih =>
    have first := toNat_issued_fresh (room.mono (Nat.le_add_left 1 n))
    -- All later names have larger numbers.
    refine List.nodup_cons.mpr ⟨fun again => ?_, ih room.fresh⟩
    have later : names.fresh.2.issued.toNat ≤ names.issued.toNat :=
      le_of_mem_draw room.fresh _ again
    omega

end NameSupply

def Operation.names : Operation → Nat
  | .empty => 2
  | .primitive c => Pool.primitiveNames c
  | .concatenate => 0
  | .union | .repetition => 1

def Event.names : Event β → Nat
  | .build op _ => op.names
  | _ => 0

def namesTaken (log : List (Moment σ β)) : Nat :=
  log.foldl (fun taken m => taken + m.event.names) 0

@[simp] theorem namesTaken_concat (log : List (Moment σ β)) (m : Moment σ β) :
    namesTaken (log ++ [m]) = namesTaken log + m.event.names := by
  simp [namesTaken]

namespace Parser

variable {K : Construction σ α β} {limit : Option UInt32} {p : Parser σ β} {m n : Nat}
  {call : Call α → Action σ β α}

/-- What was taken and what is owed is paid for, and so it was at every moment. -/
structure Funded (owed : Nat) (p : Parser σ β) : Prop where
  enough : namesTaken p.log + owed ≤ 3 * p.place.offset + 2
  always : Always (fun before m => namesTaken (before ++ [m]) ≤ 3 * m.consumed + 2) p.log

namespace Funded

theorem mono (h : Funded n p) (less : m ≤ n) : Funded m p :=
  ⟨Nat.le_trans (Nat.add_le_add_left less _) h.enough, h.always⟩

theorem noting (event : Event β) (h : Funded (n + event.names) p) : Funded n (p.noting event) := by
  have enough := h.enough
  constructor
  · simp only [Parser.noting, namesTaken_concat]
    omega
  · refine h.always.concat ?_
    simp only [namesTaken_concat]
    omega

theorem past (h : Funded n p) (c : Char) (rest : List Char) : Funded (n + 3) (p.past c rest) := by
  have enough := h.enough
  have size := Char.utf8Size_pos c
  constructor
  · simp only [Parser.past]
    omega
  · exact h.always

theorem raised (h : Funded n p) : Funded n p.raised := ⟨h.enough, h.always⟩

theorem lowered (h : Funded n p) : Funded n p.lowered := ⟨h.enough, h.always⟩

theorem building (op : Operation) {make : σ → α × σ} (h : Funded (n + op.names) p) :
    Funded n (p.building K op make) :=
  noting (.build op _) ⟨h.enough, h.always⟩

theorem around {rule : Rule} {body : Action σ β α} (h : Funded m p)
    (inner : ∀ q, Funded m q → Ends (fun _ => Funded n) (fun _ => Funded 0) (body q)) :
    Ends (fun _ => Funded n) (fun _ => Funded 0) (around K rule body p) :=
  ends_around ((inner _ (noting (.enter rule _) h)).imp
    (fun v _ => noting (.leave rule (K.describe v)))
    fun _ _ here => ⟨fun _ => here, fun e _ => noting (.fail rule e) here⟩)

end Funded

/-- The names that a call takes on account: those of the empty term at its beginning, and those of
    the unions of the branches that are done. -/
def Call.names : Call α → Nat
  | .regex | .term => 2
  | .branches done => done.length + 2
  | .factors _ | .factor | .stars _ | .base => 0

def Funds (call : Call α → Action σ β α) : Prop :=
  ∀ c n p, Funded (n + c.names) p → Ends (fun _ => Funded n) (fun _ => Funded 0) (call c p)

theorem funds_branches {done : List α} (funds : Funds call)
    (h : Funded (n + (Call.branches done).names) p) :
    Ends (fun _ => Funded n) (fun _ => Funded 0) (rules K limit call (.branches done) p) := by
  have first := funds .term (n + done.length) p (h.mono (by simp [Call.names, Nat.add_assoc]))
  refine ends_branches (first.imp (fun v q here => ⟨fun rest _ => ?_, ?_⟩) fun _ _ => id)
  -- The bar pays for the empty term behind it and for the union of the branch before it.
  · refine funds (.branches _) n _ ((here.past _ rest).mono ?_)
    simp only [Call.names, List.length_cons]
    omega
  · exact ends_join (I := fun m => Funded (n + m)) (fun _ _ _ _ owed => owed.building .union) here

theorem funds_base (funds : Funds call) (h : Funded n p) :
    Ends (fun _ => Funded n) (fun _ => Funded 0) (rules K limit call .base p) := by
  refine h.around fun q here => ends_base (fun rest ahead => ?_) fun _ => ?_
  · refine ends_group ahead (fun _ => here.mono (Nat.zero_le n)) fun _ => ?_
    have inside := here.raised.past '(' rest
    refine ⟨fun _ => inside.mono (Nat.zero_le _), ?_⟩
    refine (funds .regex n _ (inside.mono (Nat.le_succ _))).imp (fun v q' back => ?_) fun _ _ => id
    refine ⟨fun behind _ => ?_, fun _ => back.mono (Nat.zero_le n)⟩
    exact ((back.past ')' behind).mono (Nat.le_add_right n 3)).lowered
  · refine ends_primitive (fun _ => here.mono (Nat.zero_le n)) fun c rest _ => ?_
    have moved := here.past c rest
    have few := Derivation.names_letter_le c
    refine ⟨(moved.mono ?_).building (.primitive c), fun _ => moved.mono (Nat.zero_le _)⟩
    simp only [Operation.names]
    omega

theorem funds_rules (funds : Funds call) : Funds (rules K limit call) := by
  intro c n p h
  cases c with
  | regex => exact h.around fun q here => funds (.branches []) n q here
  | branches done => exact funds_branches funds h
  | term =>
    exact h.around fun q here => funds (.factors _) n _ (here.building .empty)
  | factors value =>
    refine ends_factors h fun _ => (funds .factor n p h).imp (fun v q here => ?_) fun _ _ => id
    exact funds (.factors _) n _ (here.building .concatenate)
  | factor =>
    exact h.around fun q here => Ends.bind ((funds .base n q here).imp
      (fun v q' => funds (.stars v) n q') fun _ _ => id)
  | stars value =>
    refine ends_stars h fun rest _ => ?_
    have moved := (h.past '*' rest).mono (show n + 1 ≤ n + 3 by omega)
    exact funds (.stars _) n _ (moved.building .repetition)
  | base => exact funds_base funds h

variable (K limit) in
theorem run_funds (clock : Nat) : Funds (run K limit clock) :=
  run_induct K limit (motive := Funds) (fun _ _ _ h => h.mono (Nat.zero_le _))
    (fun _ => funds_rules) clock

variable (K limit) in
theorem funded_of_run (s : σ) (text : List Char) (clock : Nat) :
    Always (fun before m => namesTaken (before ++ [m]) ≤ 3 * m.consumed + 2)
      (run K limit clock .regex (start s text)).2.log := by
  have begun : Funded (0 + 2) (start s text : Parser σ β) := ⟨Nat.le_refl 2, always_nil _⟩
  exact (run_funds K limit clock .regex 0 _ begun).state.always

section Supply

theorem Makes.draw {op : Operation} {make : NameSupply → Automaton × NameSupply}
    (makes : Makes thompson op make) (names : NameSupply) :
    (make names).2 = (NameSupply.draw op.names names).2 := by
  cases makes with
  | empty | concatenate | union | repetition => rfl
  | primitive c =>
    by_cases mark : c = emptyMark
    · subst mark
      rfl
    · simp only [thompson, Fragment.primitive_letter mark, Operation.names, Pool.primitiveNames,
        if_neg mark]
      rfl

/-- The supply is what is left of all names when those that were taken are drawn. -/
structure Drawn (p : Parser NameSupply Summary) : Prop where
  supply : p.supply = (NameSupply.draw (namesTaken p.log) ⟨0⟩).2
  always : Always (fun before m => m.supply = (NameSupply.draw (namesTaken (before ++ [m])) ⟨0⟩).2)
    p.log

theorem kept_drawn : Kept thompson limit Drawn where
  noting p event ofRule h := by
    have none : event.names = 0 := by
      cases event with
      | build => exact ofRule.elim
      | enter | leave | fail => rfl
    have supply : p.supply = (NameSupply.draw (namesTaken (p.noting event).log) ⟨0⟩).2 := by
      simp only [noting, namesTaken_concat, none, Nat.add_zero]
      exact h.supply
    exact ⟨supply, h.always.concat supply⟩
  past p c rest _ h := ⟨h.supply, h.always⟩
  raised p _ h := ⟨h.supply, h.always⟩
  lowered p h := ⟨h.supply, h.always⟩
  building p op make makes h := by
    have supply : (make p.supply).2 =
        (NameSupply.draw (namesTaken (p.building thompson op make).log) ⟨0⟩).2 := by
      simp only [building, noting, namesTaken_concat, Event.names]
      rw [NameSupply.draw_add, ← h.supply]
      exact makes.draw p.supply
    exact ⟨supply, h.always.concat supply⟩

variable (limit) in
theorem drawn_of_run (text : List Char) (clock : Nat) :
    Always (fun before m => m.supply = (NameSupply.draw (namesTaken (before ++ [m])) ⟨0⟩).2)
      (run thompson limit clock .regex (start ⟨0⟩ text)).2.log := by
  have begun : Drawn (start ⟨0⟩ text) := ⟨rfl, always_nil _⟩
  exact (kept_drawn.run thompson limit clock .regex begun).state.always

end Supply

end Parser

end Thompson
