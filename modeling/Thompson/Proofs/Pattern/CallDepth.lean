import Mathlib.Data.List.Infix
import Thompson.Proofs.Pattern.Groups
import Thompson.Proofs.Pattern.Issuing
import Thompson.Proofs.Pattern.NameCount
import Thompson.Proofs.Pattern.Parsing

/-!
How many rules are active at once. The limit alone bounds them, however long a pattern is and
however many branches, factors and stars stand side by side in it; without a limit the groups do
that are open at once.
-/
namespace Thompson

open String (utf8Len)

theorem OpenAt.le_mostOpen {text : List Char} {consumed groups : Nat}
    (h : OpenAt text consumed groups) : groups ≤ mostOpen text := by
  obtain ⟨u, v, rfl, _, count⟩ := h
  have most := openGroups_le_mostOpen u v
  rw [openGroups] at most
  omega

theorem length_le_utf8Len (text : List Char) : text.length ≤ utf8Len text := by
  induction text with
  | nil => exact Nat.le_refl 0
  | cons c text ih =>
    have size := Char.utf8Size_pos c
    rw [List.length_cons, String.utf8Len_cons]
    omega

theorem countable_of_short {pattern : String} (short : pattern.utf8ByteSize ≤ longestPattern) :
    pattern.toList.count '(' < UInt32.size := by
  have count := List.count_le_length (a := '(') (l := pattern.toList)
  have length := length_le_utf8Len pattern.toList
  rw [String.utf8Len_toList] at length
  simp only [longestPattern, UInt32.size] at *
  omega

section Depth

variable {σ β : Type} {log : List (Moment σ β)} {before after : List (Event β)} {bound : Nat}

theorem active_le (always : Always (fun before m =>
      entered (before ++ [m]) ≤ ended (before ++ [m]) + bound) log)
    (split : (log.map fun m => m.event) = before ++ after) :
    before.countP Event.isEntry ≤ before.countP Event.isEnd + bound := by
  obtain ⟨first, rest, rfl, rfl, rfl⟩ := List.map_eq_append_iff.mp split
  rcases List.eq_nil_or_concat first with rfl | ⟨earlier, m, rfl⟩
  · exact Nat.zero_le _
  · have here := always earlier m rest (by simp)
    simpa [entered, ended, List.countP_map, Function.comp_def] using here

end Depth

variable {pattern : String} {before after : List (Event Summary)}

/-- However many groups may be open, so many times four rules, and four more. -/
theorem depth_le_of_groups (limit : Option UInt32) {groups : Nat}
    (short : pattern.utf8ByteSize ≤ longestPattern)
    (most : ∀ offset (count : UInt32), (∀ n, limit = some n → count ≤ n) →
      OpenAt pattern.toList offset count.toNat → count.toNat ≤ groups)
    (split : events (limit.map UInt32.toNat) pattern = before ++ after) (verbosity : Verbosity) :
    before.countP Event.isEntry ≤ before.countP Event.isEnd + 4 * (groups + 1) ∧
      (Recorder.noteAll ⟨verbosity, 0, false⟩ before).1.depth ≤ 4 * (groups + 1) := by
  have placed := Parser.placed_of_run thompson limit ⟨0⟩ (countable_of_short short)
    (6 * pattern.length + 6)
  have active : before.countP Event.isEntry ≤ before.countP Event.isEnd + 4 * (groups + 1) := by
    obtain ⟨_, told⟩ := parse_eq limit pattern (Nat.le_refl _)
    rw [parse, Parser.told, Parser.root_state, split] at told
    refine active_le (fun earlier m later whole => ?_) told
    obtain ⟨⟨opened, few⟩, limited⟩ := placed earlier m later whole
    have here := most _ _ limited opened
    omega
  have shown : _ + (Recorder.noteAll ⟨verbosity, 0, false⟩ before).1.depth = _ :=
    Recorder.depth_events before after split
  exact ⟨active, by omega⟩

/-- At every moment while a pattern is read: with a limit on the groups that may be open, no more
    than four rules for each of them and four more were entered and have not ended, and no printing
    tracer counts deeper. Without a limit the groups that the pattern opens at once take its place.
    It does not matter how long the pattern is. -/
theorem call_depth_bounded (pattern : String) (short : pattern.utf8ByteSize ≤ longestPattern)
    (before after : List (Event Summary)) (verbosity : Verbosity) :
    (∀ n : UInt32, events (some n.toNat) pattern = before ++ after →
      before.countP Event.isEntry ≤ before.countP Event.isEnd + 4 * (n.toNat + 1) ∧
        (Recorder.noteAll ⟨verbosity, 0, false⟩ before).1.depth ≤ 4 * (n.toNat + 1)) ∧
    (events none pattern = before ++ after →
      before.countP Event.isEntry ≤
          before.countP Event.isEnd + 4 * (mostOpen pattern.toList + 1) ∧
        (Recorder.noteAll ⟨verbosity, 0, false⟩ before).1.depth ≤
          4 * (mostOpen pattern.toList + 1)) := by
  constructor
  · intro n split
    exact depth_le_of_groups (some n) short
      (fun _ count limited _ => UInt32.le_iff_toNat_le.mp (limited n rfl)) split verbosity
  · intro split
    exact depth_le_of_groups none short (fun _ _ _ opened => opened.le_mostOpen) split
      verbosity

/-- Two groups inside each other and a character in them use up what a limit of two allows. -/
theorem call_depth_bounded_nested : "(a|(b))*".utf8ByteSize ≤ longestPattern ∧
    ∃ before after, events (some (2 : UInt32).toNat) "(a|(b))*" = before ++ after ∧
      before.countP Event.isEntry = before.countP Event.isEnd + 12 ∧
      before.countP Event.isEntry ≤ before.countP Event.isEnd + 4 * ((2 : UInt32).toNat + 1) ∧
      (Recorder.noteAll ⟨.verbose, 0, false⟩ before).1.depth ≤ 4 * ((2 : UInt32).toNat + 1) := by
  have short : "(a|(b))*".utf8ByteSize ≤ longestPattern := by decide
  have split := (List.take_append_drop 24 (events (some (2 : UInt32).toNat) "(a|(b))*")).symm
  refine ⟨short, _, _, split, ?_, (call_depth_bounded _ short _ _ .verbose).1 2 split⟩
  rfl

/-!
The machine words of the parser. Both of them, the number of names issued and the count of open
groups, say at every moment what they stand for: neither of them ever wraps around or is cut off.
-/

open String (utf8Len)

theorem OpenAt.le_utf8Len {text : List Char} {consumed groups : Nat}
    (h : OpenAt text consumed groups) : consumed ≤ utf8Len text := by
  obtain ⟨u, v, rfl, rfl, _⟩ := h
  rw [String.utf8Len_append]
  exact Nat.le_add_right _ _

theorem hasRoom_of_consumed {pattern : String} {taken consumed : Nat}
    (short : pattern.utf8ByteSize ≤ longestPattern) (inside : consumed ≤ utf8Len pattern.toList)
    (few : taken ≤ 3 * consumed + 2) : (⟨0⟩ : NameSupply).HasRoom taken := by
  have zero : (0 : UInt32).toNat = 0 := rfl
  rw [String.utf8Len_toList] at inside
  simp only [NameSupply.HasRoom, UInt32.size, longestPattern] at *
  omega

/-- A pattern that is short enough, parsed with any limit and for any time. At every moment no more
    than three names were taken for each byte consumed so far, and two. The number of names issued
    is that of the names taken by the operations so far; they were drawn one after the other, and no
    two are the same. The count of open groups is what the parentheses consumed so far leave open.
    With enough time the parser comes to what compiling the pattern comes to. -/
theorem counters_exact (limit : Option UInt32) (clock : Nat) (pattern : String)
    (short : pattern.utf8ByteSize ≤ longestPattern) :
    let parsed := parse limit clock pattern
    (∀ before m after, parsed.2.log = before ++ m :: after →
      let taken := namesTaken (before ++ [m])
      taken ≤ 3 * m.consumed + 2 ∧
      m.supply.issued.toNat = taken ∧
      m.supply = (NameSupply.draw taken ⟨0⟩).2 ∧ (NameSupply.draw taken ⟨0⟩).1.Nodup ∧
      OpenAt pattern.toList m.consumed m.depth.toNat) ∧
    (6 * pattern.length + 6 ≤ clock →
      parsed.1 = (compile (limit.map UInt32.toNat) pattern).mapError .failed ∧
      parsed.2.told = events (limit.map UInt32.toNat) pattern) := by
  refine ⟨?_, parse_eq limit pattern⟩
  intro before m after split
  rw [parse, Parser.root_state] at split
  obtain ⟨⟨opened, _⟩, _⟩ :=
    Parser.placed_of_run thompson limit ⟨0⟩ (countable_of_short short) clock before m after split
  have few := Parser.funded_of_run thompson limit ⟨0⟩ pattern.toList clock before m after split
  have drawn := Parser.drawn_of_run limit pattern.toList clock before m after split
  have room := hasRoom_of_consumed short opened.le_utf8Len few
  have issued := NameSupply.toNat_issued_draw room
  rw [← drawn, UInt32.toNat_zero, Nat.zero_add] at issued
  exact ⟨few, issued, drawn, NameSupply.nodup_draw room, opened⟩

/-- Two bars and nothing else: as many names as there can be for two bytes. -/
theorem counters_exact_bars : "||".utf8ByteSize ≤ longestPattern ∧
    ∃ before m after, (parse none 18 "||").2.log = before ++ m :: after ∧ m.consumed = 2 ∧
      m.supply.issued = 8 ∧ m.supply.issued.toNat = namesTaken (before ++ [m]) ∧
      namesTaken (before ++ [m]) ≤ 3 * m.consumed + 2 := by
  have short : "||".utf8ByteSize ≤ longestPattern := by decide
  obtain ⟨moments, _⟩ := counters_exact none 18 "||" short
  have joined : ((parse none 18 "||").2.log.drop 11).head?.map
      (fun m => (m.consumed, m.supply.issued)) = some (2, 8) := by decide +kernel
  obtain ⟨m, first, same⟩ := Option.map_eq_some_iff.mp joined
  obtain ⟨consumed, issued⟩ := Prod.mk.inj same
  obtain ⟨after, later⟩ := List.head?_eq_some_iff.mp first
  have split : (parse none 18 "||").2.log = (parse none 18 "||").2.log.take 11 ++ m :: after := by
    rw [← later, List.take_append_drop]
  obtain ⟨few, exact, _⟩ := moments _ m after split
  exact ⟨short, _, m, after, split, consumed, issued, exact, few⟩

end Thompson
