import Thompson.Proofs.Pattern.Groups
import Thompson.Proofs.Pattern.Parsing
import Thompson.Proofs.Pattern.Progress

/-!
How many rules are entered in a whole run. A character pays for four entries: the factor and the
base that it begins, or the alternation and the term behind it. What stands before the first
character adds an alternation and a term of its own.
-/
namespace Thompson

open String (utf8Len)
open Descent (TermEnds termEnds_iff)

variable {σ α β : Type}

theorem Cursor.Moves.offset_add {text : List Char} {k : Cursor} (h : (ofText text).Moves k) :
    k.offset + utf8Len k.rest = utf8Len text := by
  obtain ⟨w, same, size⟩ := h
  have whole : text = w ++ k.rest := same
  rw [whole, String.utf8Len_append, size, ofText, Nat.zero_add]

namespace Parser

variable {K : Construction σ α β} {limit : Option UInt32} {text rest : List Char} {c : Char}
  {p : Parser σ β} {call : Call α → Action σ β α} {rule : Rule} {m n : Nat}

/-- The entries so far and some more are paid for by the characters consumed. -/
structure Paid (text : List Char) (more : Nat) (p : Parser σ β) : Prop where
  place : (Cursor.ofText text).Moves p.place
  enough : entered p.log + more ≤ 4 * p.place.offset + 4

def Spent (text : List Char) (p : Parser σ β) : Prop := entered p.log ≤ 4 * utf8Len text + 2

namespace Paid

theorem mono (h : Paid text n p) (less : m ≤ n) : Paid text m p :=
  ⟨h.place, Nat.le_trans (Nat.add_le_add_left less _) h.enough⟩

theorem spent (h : Paid text 2 p) : Spent text p := by
  have whole := h.place.offset_add
  have enough := h.enough
  rw [Spent]
  omega

theorem spent_of_ahead (h : Paid text 0 p) (ahead : p.place.rest ≠ []) : Spent text p := by
  have whole := h.place.offset_add
  have enough := h.enough
  obtain ⟨c, rest, ahead⟩ := List.exists_cons_of_ne_nil ahead
  have size := Char.utf8Size_pos c
  rw [ahead, String.utf8Len_cons] at whole
  rw [Spent]
  omega

theorem noting (event : Event β) (h : Paid text (n + event.isEntry.toNat) p) :
    Paid text n (p.noting event) := by
  have enough := h.enough
  refine ⟨h.place, ?_⟩
  simp only [Parser.noting, entered_concat]
  omega

theorem building (h : Paid text n p) (op : Operation) (make : σ → α × σ) :
    Paid text n (p.building K op make) := by
  have supplied : Paid text n { p with supply := (make p.supply).2 } := ⟨h.place, h.enough⟩
  exact supplied.noting (.build op _)

theorem past (h : Paid text n p) (ahead : p.place.rest = c :: rest) :
    Paid text 4 (p.past c rest) := by
  have enough := h.enough
  have size := Char.utf8Size_pos c
  refine ⟨h.place.past ahead, ?_⟩
  simp only [Parser.past]
  omega

theorem around {body : Action σ β α} (h : Paid text (n + 1) p)
    (inner : ∀ q, q.place = p.place → Paid text n q →
      Ends (fun _ => Paid text 2) (fun _ => Spent text) (body q)) :
    Ends (fun _ => Paid text 2) (fun _ => Spent text) (around K rule body p) := by
  have begun : Paid text n (p.noting (.enter rule p.place.offset)) := h.noting _
  refine ends_around ((inner (p.noting _) rfl begun).imp
    (fun v _ => noting (.leave rule (K.describe v))) fun _ q here => ⟨fun _ => here, fun e _ => ?_⟩)
  rw [Spent, Parser.noting, entered_concat]
  exact here

end Paid

/-- The entries that a call makes before it has consumed anything, and two for what ends behind
    it. -/
def Call.entries : Call α → Nat
  | .regex => 4
  | .branches _ | .term => 3
  | .factors _ | .factor | .stars _ => 2
  | .base => 1

def Pays (text : List Char) (call : Call α → Action σ β α) : Prop :=
  ∀ c p, Paid text c.entries p → (c.NeedsFactor → ¬TermEnds p.place) →
    Ends (fun _ => Paid text 2) (fun _ => Spent text) (call c p)

theorem pays_branches {done : List α} (pays : Pays text call) (h : Paid text 3 p) :
    Ends (fun _ => Paid text 2) (fun _ => Spent text) (rules K limit call (.branches done) p) := by
  refine ends_branches ((pays .term p h (fun none => none.elim)).imp (fun v q here => ⟨?_, ?_⟩)
    fun _ _ => id)
  · intro rest ahead
    have taken := (here.past ahead).mono (show 3 ≤ 4 by decide)
    exact pays (.branches _) _ taken (fun none => none.elim)
  · exact ends_join (I := fun _ => Paid text 2) (fun _ _ _ _ paid => paid.building _ _) here

theorem pays_base (pays : Pays text call) (h : Paid text 0 p) (more : p.place.rest ≠ []) :
    Ends (fun _ => Paid text 2) (fun _ => Spent text)
      ((do if ← nextIs '(' then group limit call else primitive K) p) := by
  refine ends_base (fun rest ahead => ?_) fun _ => ?_
  · refine ends_group ahead (fun _ => h.spent_of_ahead more) fun _ => ?_
    have taken := h.past ahead
    have inside : Paid text 4 (p.raised.past '(' rest) := ⟨taken.place, taken.enough⟩
    refine ⟨fun _ => (inside.mono (show 2 ≤ 4 by decide)).spent, ?_⟩
    refine (pays .regex _ inside (fun none => none.elim)).imp (fun v q back => ?_) fun _ _ => id
    refine ⟨fun behind closing => ?_, fun _ => back.spent⟩
    have closed := (back.past closing).mono (show 2 ≤ 4 by decide)
    exact ⟨closed.place, closed.enough⟩
  · refine ends_primitive (fun _ => h.spent_of_ahead more) fun c rest ahead => ?_
    have taken : Paid text 2 (p.past c rest) := (h.past ahead).mono (show 2 ≤ 4 by decide)
    exact ⟨taken.building _ _, fun _ => taken.spent⟩

theorem pays_rules (pays : Pays text call) : Pays text (rules K limit call) := by
  intro c p h goes
  cases c with
  | regex =>
    exact h.around fun q _ here => pays (.branches []) q here (fun none => none.elim)
  | branches done => exact pays_branches pays h
  | term =>
    exact h.around fun q _ here =>
      pays (.factors _) _ (here.building .empty K.empty) (fun none => none.elim)
  | factors value =>
    refine ends_factors h fun goes => (pays .factor p h fun _ => goes).imp (fun v q here => ?_)
      fun _ _ => id
    exact pays (.factors _) _ (here.building _ _) (fun none => none.elim)
  | factor =>
    refine h.around fun q same here => Ends.bind ((pays .base q here ?_).imp
      (fun v q' back => pays (.stars v) q' back (fun none => none.elim)) fun _ _ => id)
    rw [same]
    exact goes
  | stars value =>
    refine ends_stars h fun rest ahead => ?_
    have moved := (h.past ahead).mono (show 2 ≤ 4 by decide)
    exact pays (.stars _) _ (moved.building _ _) (fun none => none.elim)
  | base =>
    refine h.around fun q same here => pays_base pays here ?_
    rw [same]
    exact fun ends => goes trivial (termEnds_iff.mpr (.inl ends))

theorem pays_zero :
    Pays text fun (_ : Call α) (p : Parser σ β) => (throw .unfinished : Action σ β α) p := by
  intro c p h goes
  change Spent text p
  cases c with
  | regex | branches | term | factors | factor | stars =>
    exact (h.mono (by simp [Call.entries])).spent
  -- The entry of the base is on account of the character ahead.
  | base =>
    exact (h.mono (Nat.zero_le 1)).spent_of_ahead fun ends =>
      goes trivial (termEnds_iff.mpr (.inl ends))

variable (K limit) in
theorem entered_run_le (s : σ) (text : List Char) (clock : Nat) :
    entered (run K limit clock .regex (start s text)).2.log ≤ 4 * utf8Len text + 2 := by
  have pays : Pays text (run K limit clock) :=
    run_induct K limit (motive := Pays text) pays_zero (fun _ => pays_rules) clock
  have begun : Paid text 4 (start s text : Parser σ β) := ⟨.refl _, Nat.le_refl 4⟩
  exact ((pays .regex _ begun fun none => none.elim).imp (fun _ _ paid => paid.spent)
    fun _ _ => id).state

end Parser

/-- Parsing comes to an end on every text and with every limit, and never goes back: with time for
    six calls for each character, and six more, it comes to what compiling the pattern comes to. For
    however long it may go on, from whatever state, no call moves back and every factor that comes
    to a value has consumed something. A rule is entered where the parser stands. An alternation
    begins at the beginning of the text or right behind the parenthesis of the base entered just
    before, and a term where its alternation begins or right behind the bar after the term before
    it. So there are no more entries than four for each byte, and two. -/
theorem parsing_progresses (limit : Option UInt32) (pattern : String) :
    (∀ clock, 6 * pattern.length + 6 ≤ clock →
      let parsed := parse limit clock pattern
      parsed.1 ≠ .error .unfinished ∧
      parsed.1 = (compile (limit.map UInt32.toNat) pattern).mapError .failed ∧
      parsed.2.told = events (limit.map UInt32.toNat) pattern) ∧
    (∀ clock (c : Parser.Call Automaton) (p : Parser NameSupply Summary),
      p.place.Moves (Parser.run thompson limit clock c p).2.place) ∧
    (∀ clock (p : Parser NameSupply Summary) value q,
      Parser.run thompson limit clock .factor p = (.ok value, q) →
      p.place.offset < q.place.offset) ∧
    (∀ clock before m after, (parse limit clock pattern).2.log = before ++ m :: after →
      Announced pattern.toList before m) ∧
    (∀ clock, entered (parse limit clock pattern).2.log ≤ 4 * pattern.utf8ByteSize + 2) ∧
    (events (limit.map UInt32.toNat) pattern).countP Event.isEntry ≤
      4 * pattern.utf8ByteSize + 2 := by
  have few (clock) : entered (parse limit clock pattern).2.log ≤ 4 * pattern.utf8ByteSize + 2 := by
    rw [parse, Parser.root_state, ← String.utf8Len_toList]
    exact Parser.entered_run_le thompson limit ⟨0⟩ pattern.toList clock
  refine ⟨fun clock time => ?_, fun clock c p => ?_, fun clock p value q out => ?_,
    fun clock before m after split => ?_, few, ?_⟩
  · obtain ⟨outcome, told⟩ := parse_eq limit pattern time
    refine ⟨?_, outcome, told⟩
    rw [outcome]
    cases compile (limit.map UInt32.toNat) pattern with
    | error e => simp [Except.mapError]
    | ok value => simp [Except.mapError]
  · exact (Parser.run_moves thompson limit clock c p).state
  · have consumes := Parser.factor_consumes thompson limit clock p
    rw [out] at consumes
    exact consumes
  · rw [parse, Parser.root_state] at split
    exact Parser.announced_of_run thompson limit ⟨0⟩ pattern.toList clock before m after split
  · obtain ⟨_, told⟩ := parse_eq limit pattern (Nat.le_refl _)
    rw [← told, Parser.told, List.countP_map]
    exact few _

/-- A group of two empty branches: the second term begins behind the bar, and the group is a factor
    that has consumed all of it. -/
theorem parsing_progresses_bar : 6 * "(|)".length + 6 ≤ 24 ∧
    (parse (some 1) 24 "(|)").1 ≠ .error .unfinished ∧
    (∃ before m after, (parse (some 1) 24 "(|)").2.log = before ++ m :: after ∧
      m.event = .enter .term 2 ∧ m.consumed = 2 ∧ Rule.BeginsAt "(|)".toList before .term 2) ∧
    (∃ value q, Parser.run thompson (some 1) 24 .factor (Parser.start ⟨0⟩ "(|)".toList) =
      (.ok value, q) ∧ 0 < q.place.offset) ∧
    (events (some 1) "(|)").countP Event.isEntry = 7 := by
  have time : 6 * "(|)".length + 6 ≤ 24 := by decide
  obtain ⟨finishes, _, consumes, announced, _⟩ := parsing_progresses (some 1) "(|)"
  refine ⟨time, (finishes 24 time).1, ?_, ?_, by decide +kernel⟩
  · have entered : ((parse (some 1) 24 "(|)").2.log.drop 9).head?.map (fun m => m.event) =
        some (.enter .term 2) := by decide +kernel
    obtain ⟨m, first, event⟩ := Option.map_eq_some_iff.mp entered
    obtain ⟨after, later⟩ := List.head?_eq_some_iff.mp first
    have split : (parse (some 1) 24 "(|)").2.log =
        (parse (some 1) 24 "(|)").2.log.take 9 ++ m :: after := by
      rw [← later, List.take_append_drop]
    obtain ⟨stands, begins⟩ := announced 24 _ m after split .term 2 event
    exact ⟨_, m, after, split, event, stands, begins⟩
  · have group : (Parser.run thompson (some 1) 24 .factor
        (Parser.start ⟨0⟩ "(|)".toList)).1.toOption.isSome = true := by decide +kernel
    rcases out : Parser.run thompson (some 1) 24 .factor (Parser.start ⟨0⟩ "(|)".toList) with
      ⟨halt | value, q⟩
    · rw [out] at group
      contradiction
    · exact ⟨value, q, rfl, consumes 24 _ value q out⟩

end Thompson
