import Thompson.Proofs.Pattern.Calls
import Thompson.Trace

/-!
What a trace shows of a reading. The lines of a verbose trace are nested as the rules are: what
happens in a rule stands two blanks further in, between the line of its entry and the line of its
exit. A short trace has the same lines without those of rules and without blanks in front. Only an
error inside a rule has a line of its own, the last one. No tracer has a say in the outcome.
The events are those that the rules tell of while they call each other; their lines are proved of
any events that come from rules entered and left in pairs, and of those followed by failures.
-/
namespace Thompson

open Text (indented withoutIndent)

namespace Recorder

variable {verbosity : Verbosity}

theorem noteAll_append (r : Recorder) (es more : List (Event Summary)) :
    r.noteAll (es ++ more) = (((r.noteAll es).1.noteAll more).1,
      (r.noteAll es).2 ++ ((r.noteAll es).1.noteAll more).2) := by
  induction es generalizing r with
  | nil => rfl
  | cons event es ih => simp only [List.cons_append, noteAll, ih, List.append_assoc]

variable (verbosity) in
theorem noteAll_of_calls {rules rules' : List Rule} {es : List (Event Summary)}
    (calls : Calls rules es rules') :
    (noteAll ⟨verbosity, rules.length, false⟩ es).1 = ⟨verbosity, rules'.length, false⟩ := by
  induction calls with
  | nil => rfl
  | enter _ ih => exact ih
  | leave _ ih => exact ih
  | build _ _ ih => exact ih

variable (verbosity) in
theorem noteAll_fails (rules : List Rule) (depth : Nat) (e : PatternError) :
    noteAll ⟨verbosity, depth + rules.length, true⟩ (rules.map fun active => .fail active e) =
      (⟨verbosity, depth, true⟩, []) := by
  induction rules with
  | nil => rfl
  | cons rule rules ih =>
    simp only [List.map_cons, noteAll, note, after, List.length_cons, ← Nat.add_assoc,
      Nat.add_sub_cancel, ih]
    rfl

end Recorder

/-- The lines at a depth. An operation has one line; a rule has one for its entry and one for its
    exit, and those of what happens in it between them, one level deeper. -/
inductive NestedLines : Nat → List String → Prop where
  | nil (depth : Nat) : NestedLines depth []
  | operation {depth : Nat} {lines : List String} {op : Operation} (result : Summary)
      (literal : op.Literal) (rest : NestedLines depth lines) : NestedLines depth
        (indented (2 * depth) (op.text ++ " → " ++ result.text) :: lines)
  | rule {depth : Nat} {inside lines : List String} (rule : Rule) (offset : Nat) (result : Summary)
      (inner : NestedLines (depth + 1) inside) (rest : NestedLines depth lines) :
      NestedLines depth (indented (2 * depth) (rule.text ++ " @" ++ toString offset) :: inside ++
        indented (2 * depth) (rule.text ++ " ⇒ " ++ result.text) :: lines)

/-- The lines up to a point where some rules are active, the innermost first: each of them was
    entered and has not been left. -/
inductive OpenLines : List Rule → List String → Prop where
  | nil {lines : List String} (nested : NestedLines 0 lines) : OpenLines [] lines
  | cons {rules : List Rule} {before inside : List String} (rule : Rule) (offset : Nat)
      (outer : OpenLines rules before) (inner : NestedLines (rules.length + 1) inside) :
      OpenLines (rule :: rules)
        (before ++ indented (2 * rules.length) (rule.text ++ " @" ++ toString offset) :: inside)

section Nesting

variable {depth : Nat} {lines more : List String} {rules rules' : List Rule}
  {es : List (Event Summary)}

theorem NestedLines.append (first : NestedLines depth lines) (second : NestedLines depth more) :
    NestedLines depth (lines ++ more) := by
  induction first with
  | nil => exact second
  | operation result literal _ ih => exact .operation result literal (ih second)
  | rule rule offset result inner _ _ ih =>
    have whole := NestedLines.rule rule offset result inner (ih second)
    simpa only [List.cons_append, List.append_assoc] using whole

theorem OpenLines.append (first : OpenLines rules lines)
    (second : NestedLines rules.length more) : OpenLines rules (lines ++ more) := by
  cases first with
  | nil nested => exact .nil (nested.append second)
  | cons rule offset outer inner =>
    rw [List.append_assoc, List.cons_append]
    exact .cons rule offset outer (inner.append second)

theorem OpenLines.leave {rule : Rule} (here : OpenLines (rule :: rules) lines) (result : Summary) :
    OpenLines rules (lines ++
      [indented (2 * rules.length) (rule.text ++ " ⇒ " ++ result.text)]) := by
  cases here with
  | cons rule offset outer inner =>
    rw [List.append_assoc]
    exact outer.append (.rule rule offset result inner (.nil _))

/-- Events of a reading keep the lines nested. -/
theorem OpenLines.note (here : OpenLines rules lines) (calls : Calls rules es rules') :
    OpenLines rules' (lines ++ (Recorder.noteAll ⟨.verbose, rules.length, false⟩ es).2) := by
  induction calls generalizing lines with
  | nil =>
    rw [Recorder.noteAll, List.append_nil]
    exact here
  | @enter rule offset rules rules' es _ ih =>
    have entered := ih (.cons rule offset here (.nil _))
    rwa [List.append_assoc] at entered
  | @leave rule result rules rules' es _ ih =>
    have left := ih (here.leave result)
    rwa [List.append_assoc] at left
  | @build op result rules rules' es literal _ ih =>
    have built := ih (here.append (.operation result literal (.nil _)))
    rwa [List.append_assoc] at built

end Nesting

section Short

def isRuleLine (line : String) : Bool :=
  [Rule.regex, .term, .factor, .base].any fun rule =>
    (rule.text ++ " @").toList.isPrefixOf (withoutIndent line).toList ||
      (rule.text ++ " ⇒ ").toList.isPrefixOf (withoutIndent line).toList

variable (depth : Nat)

theorem isRuleLine_enter (rule : Rule) (offset : Nat) :
    isRuleLine (indented (2 * depth) (rule.text ++ " @" ++ toString offset)) = true := by
  rw [isRuleLine, Text.withoutIndent_indented]
  · cases rule <;> simp [Rule.text, List.isPrefixOf]
  · cases rule <;> simp [Rule.text]

theorem isRuleLine_leave (rule : Rule) (result : Summary) :
    isRuleLine (indented (2 * depth) (rule.text ++ " ⇒ " ++ result.text)) = true := by
  rw [isRuleLine, Text.withoutIndent_indented]
  · cases rule <;> simp [Rule.text, List.isPrefixOf]
  · cases rule <;> simp [Rule.text]

theorem isRuleLine_operation (op : Operation) (result : Summary) :
    isRuleLine (indented (2 * depth) (op.text ++ " → " ++ result.text)) = false ∧
      withoutIndent (indented (2 * depth) (op.text ++ " → " ++ result.text)) =
        op.text ++ " → " ++ result.text := by
  have visible : (op.text ++ " → " ++ result.text).toList.head? ≠ some ' ' := by
    cases op <;> simp [Operation.text]
  have stripped := Text.withoutIndent_indented (2 * depth) visible
  refine ⟨?_, stripped⟩
  rw [isRuleLine, stripped]
  cases op <;> simp [Operation.text, Rule.text, List.isPrefixOf]

theorem isRuleLine_fail (rule : Rule) (e : PatternError) :
    isRuleLine (indented (2 * depth) (rule.text ++ " ✗ " ++ e.message)) = false ∧
      withoutIndent (indented (2 * depth) (rule.text ++ " ✗ " ++ e.message)) =
        rule.text ++ " ✗ " ++ e.message := by
  have visible : (rule.text ++ " ✗ " ++ e.message).toList.head? ≠ some ' ' := by
    cases rule <;> simp [Rule.text]
  have stripped := Text.withoutIndent_indented (2 * depth) visible
  refine ⟨?_, stripped⟩
  rw [isRuleLine, stripped]
  cases rule <;> simp [Rule.text, List.isPrefixOf]

/-- The lines of a verbose trace that tell of no rule, without the blanks in front. -/
def shortened (lines : List String) : List String :=
  (lines.filter fun line => !isRuleLine line).map withoutIndent

theorem shortened_append (lines more : List String) :
    shortened (lines ++ more) = shortened lines ++ shortened more := by
  simp [shortened]

theorem shortened_singleton (line : String) :
    shortened [line] = if isRuleLine line then [] else [withoutIndent line] := by
  cases kind : isRuleLine line <;> simp [shortened, kind]

theorem note_default (event : Event Summary) (depth depth' : Nat) (failureShown : Bool) :
    (Recorder.note ⟨.default, depth, failureShown⟩ event).2 =
      shortened (Recorder.note ⟨.verbose, depth', failureShown⟩ event).2 := by
  cases event with
  | enter rule offset =>
    have shown := shortened_singleton (indented (2 * depth') (rule.text ++ " @" ++ toString offset))
    rw [isRuleLine_enter, if_pos rfl] at shown
    exact shown.symm
  | leave rule result =>
    have shown := shortened_singleton
      (indented (2 * (depth' - 1)) (rule.text ++ " ⇒ " ++ result.text))
    rw [isRuleLine_leave, if_pos rfl] at shown
    exact shown.symm
  | build op result =>
    have shown := shortened_singleton (indented (2 * depth') (op.text ++ " → " ++ result.text))
    obtain ⟨kind, stripped⟩ := isRuleLine_operation depth' op result
    rw [kind, stripped, if_neg Bool.false_ne_true] at shown
    exact shown.symm
  | fail rule e =>
    cases failureShown with
    | true => rfl
    | false =>
      have shown := shortened_singleton
        (indented (2 * (depth' - 1)) (rule.text ++ " ✗ " ++ e.message))
      obtain ⟨kind, stripped⟩ := isRuleLine_fail (depth' - 1) rule e
      rw [kind, stripped, if_neg Bool.false_ne_true] at shown
      exact shown.symm

/-- A short trace is a verbose one, shortened, whatever the events are. -/
theorem noteAll_default (es : List (Event Summary)) (depth depth' : Nat) (failureShown : Bool) :
    (Recorder.noteAll ⟨.default, depth, failureShown⟩ es).2 =
      shortened (Recorder.noteAll ⟨.verbose, depth', failureShown⟩ es).2 := by
  induction es generalizing depth depth' failureShown with
  | nil => rfl
  | cons event es ih =>
    -- The depths need not be the same, since a short line does not show one.
    simp only [Recorder.noteAll, shortened_append, note_default event depth depth']
    refine congrArg (shortened _ ++ ·) ?_
    cases event with
    | enter rule offset => exact ih _ _ _
    | leave rule result => exact ih _ _ _
    | build op result => exact ih _ _ _
    | fail rule e => exact ih _ _ _

end Short

section Marked

def failureMark : Char := '✗'

def Marked (line : String) : Prop := failureMark ∈ line.toList

instance (line : String) : Decidable (Marked line) :=
  inferInstanceAs (Decidable (failureMark ∈ line.toList))

theorem not_marked_append {s t : String} (first : ¬Marked s) (second : ¬Marked t) :
    ¬Marked (s ++ t) := by
  simpa [Marked] using not_or.mpr ⟨first, second⟩

theorem not_marked_number (n : Nat) : ¬Marked (toString n) := by
  intro mark
  have digit : failureMark ∈ Nat.toDigits 10 n := by simpa [Marked, Nat.toList_repr] using mark
  have impossible := Nat.isDigit_of_mem_toDigits (by decide) (by decide) digit
  exact absurd impossible (by decide)

theorem not_marked_state (s : State) : ¬Marked s.text :=
  not_marked_append (by decide) (not_marked_number _)

theorem not_marked_summary (f : Summary) : ¬Marked f.text := by
  have finals : ¬Marked (", ".intercalate (f.finals.map State.text)) := by
    generalize f.finals = states
    unfold Marked
    rw [String.toList_intercalate, List.map_map]
    induction states with
    | nil => exact List.not_mem_nil
    | cons s states ih =>
      cases states with
      | nil =>
        rw [List.map_singleton, List.intercalate_singleton]
        exact not_marked_state s
      | cons next states =>
        rw [List.map_cons, List.map_cons, List.intercalate_cons_cons, ← List.map_cons,
          List.mem_append, List.mem_append, not_or, not_or]
        exact ⟨⟨not_marked_state s, by decide⟩, ih⟩
  have number := not_marked_number f.stateCount
  have start := not_marked_state f.start
  refine not_marked_append ?_ (by decide)
  refine not_marked_append ?_ number
  refine not_marked_append ?_ (by decide)
  refine not_marked_append ?_ finals
  exact not_marked_append (not_marked_append (by decide) start) (by decide)

theorem not_marked_indented {n : Nat} {text : String} (plain : ¬Marked text) :
    ¬Marked (indented n text) := by
  intro mark
  rw [Marked, Text.toList_indented, List.mem_append] at mark
  rcases mark with blank | inside
  · exact absurd (List.eq_of_mem_replicate blank) (by decide)
  · exact plain inside

theorem Operation.Literal.not_marked {op : Operation} (literal : op.Literal) : ¬Marked op.text := by
  cases op with
  | primitive c =>
    rcases Reader.isLiteral_iff.mp literal with rfl | rfl | rfl
    · decide
    · decide
    · decide
  | empty | concatenate | union | repetition => decide

theorem NestedLines.not_marked {depth : Nat} {lines : List String} (nested : NestedLines depth lines) :
    ∀ line ∈ lines, ¬Marked line := by
  have name : ∀ rule : Rule, ¬Marked rule.text := by
    intro rule
    cases rule with
    | regex | term | factor | base => decide
  induction nested with
  | nil => exact fun line none => by contradiction
  | operation result literal _ ih =>
    refine List.forall_mem_cons.mpr ⟨not_marked_indented ?_, ih⟩
    exact not_marked_append (not_marked_append literal.not_marked (by decide))
      (not_marked_summary result)
  | rule rule offset result _ _ inside rest =>
    refine List.forall_mem_append.mpr ⟨List.forall_mem_cons.mpr ⟨?_, inside⟩,
      List.forall_mem_cons.mpr ⟨?_, rest⟩⟩
    · exact not_marked_indented (not_marked_append (not_marked_append (name rule) (by decide))
        (not_marked_number offset))
    · exact not_marked_indented (not_marked_append (not_marked_append (name rule) (by decide))
        (not_marked_summary result))

theorem OpenLines.not_marked {rules : List Rule} {lines : List String}
    (here : OpenLines rules lines) : ∀ line ∈ lines, ¬Marked line := by
  induction here with
  | nil nested => exact nested.not_marked
  | cons rule offset outer inner ih =>
    -- With any exit at all behind them the lines of the rule are nested.
    have whole := (NestedLines.rule rule offset ⟨⟨0⟩, [], 0⟩ inner (.nil _)).not_marked
    refine List.forall_mem_append.mpr ⟨ih, fun line member => whole line ?_⟩
    exact List.mem_append_left _ member

theorem shortened_not_marked {lines : List String} (plain : ∀ line ∈ lines, ¬Marked line) :
    ∀ line ∈ shortened lines, ¬Marked line := by
  intro line member mark
  obtain ⟨whole, kept, rfl⟩ := List.mem_map.mp member
  have inside : Marked whole := by
    unfold Marked withoutIndent at mark
    rw [String.toList_ofList] at mark
    exact (List.dropWhile_sublist _).mem mark
  exact plain whole (List.mem_filter.mp kept).1 inside

end Marked

end Thompson
