import Thompson.Pattern.Cursor
import Thompson.Proofs.Diagnostic.Ranges

/-!
What is behind a place and what is ahead of it are together the text, whatever is asked and in
whatever order, also where calls fail. So the bytes behind are those of whole characters, and the
text can be cut there; a number of bytes is as good a place as the characters ahead.
-/
namespace Thompson

open String (utf8Len)

namespace Cursor

def Call.answer (offset : Nat) (ahead : List Char) : Call → Answer
  | .peek | .next =>
    match ahead with
    | [] => .failed (.inputEnds offset)
    | c :: _ => .char c
  | .expect c =>
    if ahead.head? = some c then .done
    else .failed (.unexpected (.char c) ahead.head? offset)
  | .hasMore => .truth (ahead ≠ [])
  | .nextIs c => .truth (ahead.head? = some c)
  | .rest => .text (String.ofList ahead)

/-- A place stands behind a row of characters of a text. -/
structure StandsBehind (before text : List Char) (k : Cursor) : Prop where
  split : text = before ++ k.rest
  offset : k.offset = utf8Len before

variable {before text : List Char} {k : Cursor} {c : Call}

theorem call_answer : (k.call c).1 = c.answer k.offset k.rest := by
  obtain ⟨offset, rest⟩ := k
  cases c with
  | peek | next => cases rest <;> rfl
  | expect d =>
    cases rest with
    | nil => rfl
    | cons first rest =>
      by_cases same : first = d <;> simp [call, expect, Call.answer, same]
  | hasMore => cases rest <;> simp [call, hasMore, Call.answer]
  | nextIs d =>
    have same : (rest.head? == some d) = decide (rest.head? = some d) := by
      rw [Bool.eq_iff_iff, beq_iff_eq, decide_eq_true_iff]
    exact congrArg Answer.truth same
  | rest => rfl

theorem call_stays (stays : c.moves = false ∨ ∃ e, (k.call c).1 = .failed e) :
    (k.call c).2 = k := by
  obtain ⟨offset, rest⟩ := k
  cases c with
  | peek | hasMore | nextIs d | rest => rfl
  | next =>
    cases rest with
    | nil => rfl
    | cons first rest => simp [call, next, Call.moves] at stays
  | expect d =>
    cases rest with
    | nil => rfl
    | cons first rest =>
      by_cases same : first = d
      · simp [call, expect, Call.moves, same] at stays
      · simp [call, expect, same]

namespace StandsBehind

theorem ofText (text : List Char) : StandsBehind [] text (ofText text) := ⟨rfl, rfl⟩

theorem past {first : Char} {rest : List Char} (h : StandsBehind before text k)
    (ahead : k.rest = first :: rest) :
    StandsBehind (before ++ [first]) text ⟨k.offset + first.utf8Size, rest⟩ where
  split := by rw [h.split, ahead, List.append_assoc, List.singleton_append]
  offset := by
    rw [h.offset, String.utf8Len_append, String.utf8Len_cons, String.utf8Len_nil, Nat.zero_add]

theorem call (h : StandsBehind before text k) :
    StandsBehind (before ++ c.taken (k.call c).1) text (k.call c).2 := by
  have same : StandsBehind (before ++ []) text k := (List.append_nil before).symm ▸ h
  obtain ⟨offset, rest⟩ := k
  cases c with
  | peek | hasMore | nextIs d | rest => exact same
  | next =>
    cases rest with
    | nil => exact same
    | cons first rest => exact h.past rfl
  | expect d =>
    cases rest with
    | nil => exact same
    | cons first rest =>
      by_cases found : first = d
      · subst found
        simpa [Cursor.call, expect, Call.taken] using h.past rfl
      · simpa [Cursor.call, expect, Call.taken, found] using same

theorem run (h : StandsBehind before text k) (calls : List Call) :
    StandsBehind (before ++ taken calls (k.run calls).1) text (k.run calls).2 := by
  induction calls generalizing before k with
  | nil => simpa [Cursor.run, taken] using h
  | cons c calls ih =>
    have later := ih (h.call (c := c))
    rwa [List.append_assoc] at later

end StandsBehind

theorem length_run (k : Cursor) (calls : List Call) : (k.run calls).1.length = calls.length := by
  induction calls generalizing k with
  | nil => rfl
  | cons c calls ih => exact congrArg (· + 1) (ih _)

end Cursor

namespace ByteCursor

open Cursor (Call StandsBehind)

variable {before : List Char} {source : String} {k : Cursor} {c : Call}

theorem utf8ByteSize_of_standsBehind (h : StandsBehind before source.toList k) :
    source.utf8ByteSize = k.offset + utf8Len k.rest := by
  rw [h.offset, ← String.utf8Len_append, ← h.split, ← String.utf8ByteSize_ofList,
    String.ofList_toList]

theorem rest?_of_standsBehind (h : StandsBehind before source.toList k) :
    rest? ⟨source, k.offset⟩ = some (String.ofList k.rest) := by
  have stands : Stands k.rest (utf8Len before, source.utf8ByteSize) source.toList :=
    ⟨before, [], by rw [List.append_nil, h.split],
      by rw [utf8ByteSize_of_standsBehind h, h.offset]⟩
  have boundary : String.Pos.Raw.isValid source ⟨k.offset⟩ = true := by
    rw [h.offset]
    exact String.Pos.Raw.isValid_eq_true_iff.mpr (isValid_utf8Len h.split)
  rw [rest?, if_pos boundary, h.offset]
  exact congrArg some stands.part_eq

theorem ahead?_of_standsBehind (h : StandsBehind before source.toList k) :
    ahead? ⟨source, k.offset⟩ = some k.rest.head? := by
  rw [ahead?, rest?_of_standsBehind h, Option.map_some, String.toList_ofList]

theorem hasMore_of_standsBehind (h : StandsBehind before source.toList k) :
    hasMore ⟨source, k.offset⟩ = k.hasMore := by
  have bytes := utf8ByteSize_of_standsBehind h
  cases ahead : k.rest with
  | nil => simp [hasMore, Cursor.hasMore, bytes, ahead]
  | cons first rest =>
    have wide := first.utf8Size_pos
    simp only [hasMore, Cursor.hasMore, bytes, ahead, String.utf8Len_cons]
    simpa using Or.inr wide

theorem call_eq (h : StandsBehind before source.toList k) :
    call ⟨source, k.offset⟩ c = some ((k.call c).1, ⟨source, (k.call c).2.offset⟩) := by
  have ahead := ahead?_of_standsBehind h
  cases c with
  | rest => rw [call, rest?_of_standsBehind h]; rfl
  | hasMore => rw [call, hasMore_of_standsBehind h]; rfl
  | nextIs d => rw [call, nextIs?, ahead]; rfl
  | peek =>
    rw [call, peek?, ahead]
    cases read : k.rest <;> simp [Cursor.call, Cursor.peek, read]
  | next =>
    rw [call, next?, peek?, ahead]
    cases read : k.rest <;> simp [Cursor.call, Cursor.next, Cursor.Answer.ofChar, past, read]
  | expect d =>
    rw [call, expect?, ahead]
    cases read : k.rest with
    | nil => simp [Cursor.call, Cursor.expect, Cursor.Answer.ofUnit, read]
    | cons first rest =>
      by_cases same : first = d <;>
        simp [Cursor.call, Cursor.expect, Cursor.Answer.ofUnit, past, read, same]

theorem run_eq (h : StandsBehind before source.toList k) (calls : List Call) :
    run ⟨source, k.offset⟩ calls = some ((k.run calls).1, ⟨source, (k.run calls).2.offset⟩) := by
  induction calls generalizing before k with
  | nil => rfl
  | cons c calls ih =>
    simp only [run, call_eq h, Option.bind_eq_bind, Option.bind_some, ih h.call]
    rfl

end ByteCursor

/-- Whatever the text and the calls are, the text is never cut inside a character: there is an
    answer to every call, the same for a number of bytes and for a place. The characters taken so
    far and those ahead are the text, and the position is the size of those taken. At that point,
    so at every point, an answer to any further call is read off what is ahead, with the position
    and the character found there where it fails, and a call that only asks or fails goes
    nowhere. -/
theorem cursors_agree (source : String) (calls : List Cursor.Call) :
    let (answers, k) := (Cursor.ofText source.toList).run calls
    let b : ByteCursor := ⟨source, k.offset⟩
    (ByteCursor.ofText source).run calls = some (answers, b) ∧
    answers.length = calls.length ∧
    source.toList = Cursor.taken calls answers ++ k.rest ∧
    k.offset = utf8Len (Cursor.taken calls answers) ∧
    b.rest? = some (String.ofList k.rest) ∧
    ∀ c : Cursor.Call, ∃ next, k.call c = (c.answer k.offset k.rest, next) ∧
      b.call c = some (c.answer k.offset k.rest, ⟨source, next.offset⟩) ∧
      (c.moves = false ∨ (∃ e, c.answer k.offset k.rest = .failed e) → next = k) := by
  have start := Cursor.StandsBehind.ofText source.toList
  -- The calls before were any calls, so what holds behind them holds at every point.
  have reached := start.run calls
  have answered := ByteCursor.run_eq start calls
  have each := Cursor.length_run (.ofText source.toList) calls
  generalize (Cursor.ofText source.toList).run calls = outcome at reached answered each ⊢
  obtain ⟨answers, k⟩ := outcome
  refine ⟨answered, each, reached.split, reached.offset, ByteCursor.rest?_of_standsBehind reached,
    fun c => ⟨(k.call c).2, ?_, ?_, ?_⟩⟩
  · rw [← Cursor.call_answer]
  · rw [← Cursor.call_answer]
    exact ByteCursor.call_eq reached
  · rw [← Cursor.call_answer]
    exact Cursor.call_stays

example : (ByteCursor.ofText "aéb").run [.next, .next, .peek, .expect 'c', .rest, .expect 'b'] =
    some ([.char 'a', .char 'é', .char 'b', .failed (.unexpected (.char 'c') (some 'b') 3),
      .text "b", .done], ⟨"aéb", 4⟩) := by
  decide +kernel

end Thompson
