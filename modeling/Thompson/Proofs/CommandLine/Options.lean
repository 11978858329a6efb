import Thompson.CommandLine.Arguments

/-!
Reading the words of a command line. What is settled stays as it is, and nothing takes an operand
back. So options can be read by themselves: behind two dashes reading goes on from what they have
set, in whatever way they were spelled; and wherever options stand between them, operands keep the
order of the words.
-/
namespace Thompson

theorem exists_of_bind_eq_ok {ε α β : Type} {x : Except ε α} {f : α → Except ε β} {b : β}
    (whole : (x >>= f) = .ok b) : ∃ a, x = .ok a ∧ f a = .ok b := by
  cases x with
  | error e => contradiction
  | ok a => exact ⟨a, rfl, whole⟩

namespace Given

variable {g g' : Given} {s : Setting} {value name word : String} {letters : List Char}
  {takesInputs : Bool}

def operands (g : Given) : Option String × List String := (g.pattern, g.inputs)

theorem pattern_of_operands (same : g'.operands = g.operands) : g'.pattern = g.pattern :=
  congrArg Prod.fst same

theorem keeps_store (stored : g.store s value = .ok g') :
    g'.operands = g.operands ∧ g'.waiting = g.waiting := by
  cases s with
  | file | format | maxDepth | color =>
    obtain ⟨_, _, rest⟩ := exists_of_bind_eq_ok stored
    cases rest
    exact ⟨rfl, rfl⟩

theorem keeps_settle (settled : g.settle = .ok g') :
    g'.operands = g.operands ∧ g'.waiting = none := by
  unfold settle at settled
  split at settled
  · rename_i none
    cases settled
    exact ⟨rfl, none⟩
  · contradiction
  · exact keeps_store settled

theorem settle_again (settled : g.settle = .ok g') : g'.settle = .ok g' := by
  rw [settle, (keeps_settle settled).2]

theorem keeps_setVerbose (one : g.setVerbose = .ok g') : g'.operands = g.operands := by
  obtain ⟨settled, settles, rest⟩ := exists_of_bind_eq_ok one
  split at rest
  · contradiction
  · cases rest
    exact (keeps_settle settles).1

theorem keeps_long {value : Option String} (one : g.long name value = .ok g') :
    g'.operands = g.operands := by
  unfold long at one
  split at one
  · contradiction
  · obtain ⟨settled, settles, rest⟩ := exists_of_bind_eq_ok one
    cases rest
    exact (keeps_settle settles).1
  · obtain ⟨settled, settles, stored⟩ := exists_of_bind_eq_ok one
    exact (keeps_store stored).1.trans (keeps_settle settles).1
  · contradiction
  · exact keeps_setVerbose one
  · obtain ⟨_, _, rest⟩ := exists_of_bind_eq_ok one
    contradiction

theorem keeps_short (one : g.short letters = .ok g') : g'.operands = g.operands := by
  induction letters generalizing g with
  | nil =>
    cases one
    rfl
  | cons c letters ih =>
    unfold short at one
    split at one
    · contradiction
    · obtain ⟨verbose, sets, rest⟩ := exists_of_bind_eq_ok one
      exact (ih rest).trans (keeps_setVerbose sets)
    · obtain ⟨_, _, rest⟩ := exists_of_bind_eq_ok one
      contradiction
    · obtain ⟨settled, settles, rest⟩ := exists_of_bind_eq_ok one
      refine Eq.trans ?_ (keeps_settle settles).1
      split at rest
      · cases rest
        rfl
      · exact (keeps_store rest).1
      · exact (keeps_store rest).1

theorem some_operand (one : g.operand takesInputs word = .ok g') : g'.pattern ≠ none := by
  unfold operand at one
  split at one
  · obtain ⟨_, _, rest⟩ := exists_of_bind_eq_ok one
    cases rest
    simp
  · rename_i text given
    obtain ⟨settled, settles, rest⟩ := exists_of_bind_eq_ok one
    cases rest
    show settled.pattern ≠ none
    simp [pattern_of_operands (keeps_settle settles).1, given]
  · contradiction

section Words

variable {words more : List String} {operandsOnly : Bool}

theorem some_words (read : g.words takesInputs operandsOnly words = .ok g')
    (given : g.pattern ≠ none) : g'.pattern ≠ none := by
  induction words generalizing g operandsOnly with
  | nil => rwa [pattern_of_operands (keeps_settle read).1]
  | cons word words ih =>
    unfold Given.words at read
    split at read
    · obtain ⟨_, one, rest⟩ := exists_of_bind_eq_ok read
      exact ih rest (some_operand one)
    · split at read
      · exact ih read given
      · obtain ⟨_, one, rest⟩ := exists_of_bind_eq_ok read
        exact ih rest (pattern_of_operands (keeps_long one) ▸ given)
      · obtain ⟨_, one, rest⟩ := exists_of_bind_eq_ok read
        exact ih rest (pattern_of_operands (keeps_short one) ▸ given)
      · exact ih read given
      · obtain ⟨_, one, rest⟩ := exists_of_bind_eq_ok read
        exact ih rest (some_operand one)

theorem settle_words (read : g.words takesInputs operandsOnly words = .ok g') :
    g'.settle = .ok g' := by
  induction words generalizing g operandsOnly with
  | nil => exact settle_again read
  | cons word words ih =>
    unfold Given.words at read
    split at read
    · obtain ⟨_, _, rest⟩ := exists_of_bind_eq_ok read
      exact ih rest
    · split at read
      · exact ih read
      · obtain ⟨_, _, rest⟩ := exists_of_bind_eq_ok read
        exact ih rest
      · obtain ⟨_, _, rest⟩ := exists_of_bind_eq_ok read
        exact ih rest
      · exact ih read
      · obtain ⟨_, _, rest⟩ := exists_of_bind_eq_ok read
        exact ih rest

/-- Operands are read alike before and after what waits is settled. -/
theorem words_settled (settled : g.settle = .ok g') :
    g.words takesInputs true more = g'.words takesInputs true more := by
  have again := settle_again settled
  cases more with
  | nil => exact settled.trans again.symm
  | cons word more =>
    have same : g.operand takesInputs word = g'.operand takesInputs word := by
      unfold operand
      rw [settled, again, pattern_of_operands (keeps_settle settled).1]
    rw [Given.words, Given.words, same]
    rfl

theorem eq_of_dashes (shape : Shape.ofWord word = .dashes) : word = "--" := by
  unfold Shape.ofWord at shape
  split at shape
  · rename_i same
    exact String.toList_inj.mp same
  · unfold longShape at shape
    split at shape
    · contradiction
    · contradiction
  · contradiction
  · contradiction

theorem words_options (dashes : "--" ∉ words) (read : g.words false false words = .ok g')
    (noOperand : g'.pattern = none) :
    g.words takesInputs false (words ++ "--" :: more) = g'.words takesInputs true more := by
  induction words generalizing g with
  | nil => exact words_settled read
  | cons word words ih =>
    have apart : word ≠ "--" := fun same => dashes (same ▸ List.mem_cons_self)
    have later : "--" ∉ words := fun member => dashes (List.mem_cons_of_mem word member)
    rw [List.cons_append]
    rw [Given.words, if_neg Bool.false_ne_true] at read ⊢
    split at read
    · rename_i shape
      exact absurd (eq_of_dashes shape) apart
    · obtain ⟨middle, one, rest⟩ := exists_of_bind_eq_ok read
      rw [one]
      exact ih later rest
    · obtain ⟨middle, one, rest⟩ := exists_of_bind_eq_ok read
      rw [one]
      exact ih later rest
    · exact ih later read
    · obtain ⟨middle, one, rest⟩ := exists_of_bind_eq_ok read
      exact absurd noOperand (some_words rest (some_operand one))

theorem operand_first (settled : g.settle = .ok g) (noPattern : g.pattern = none) (text : String) :
    g.operand takesInputs text = .ok { g with pattern := some text } := by
  unfold operand
  rw [noPattern, settled]
  rfl

theorem words_inputs (settled : g.settle = .ok g) {text : String} (given : g.pattern = some text)
    (inputs : List String) :
    g.words true true inputs = .ok { g with inputs := g.inputs ++ inputs } := by
  induction inputs generalizing g with
  | nil =>
    rw [Given.words, settled, List.append_nil]
  | cons input inputs ih =>
    have one : g.operand true input = .ok { g with inputs := g.inputs ++ [input] } := by
      unfold operand
      split
      · rename_i none
        rw [given] at none
        contradiction
      · rw [settled]
        rfl
      · contradiction
    have still : ({ g with inputs := g.inputs ++ [input] } : Given).settle =
        .ok { g with inputs := g.inputs ++ [input] } := by
      rw [settle, (keeps_settle settled).2]
    rw [Given.words, if_pos rfl, one]
    refine (ih still given).trans ?_
    rw [List.append_assoc, List.singleton_append]

theorem words_operands (settled : g.settle = .ok g) (noPattern : g.pattern = none) (text : String)
    (inputs : List String) :
    g.words false true [text] = .ok { g with pattern := some text } ∧
      g.words true true (text :: inputs) =
        .ok { g with pattern := some text, inputs := g.inputs ++ inputs } := by
  have still : ({ g with pattern := some text } : Given).settle =
      .ok { g with pattern := some text } := by
    rw [settle, (keeps_settle settled).2]
  constructor
  · rw [Given.words, if_pos rfl, operand_first settled noPattern]
    exact still
  · rw [Given.words, if_pos rfl, operand_first settled noPattern]
    exact words_inputs still rfl inputs

end Words

section Order

variable {words : List String} {operandsOnly : Bool}

def row (g : Given) : List String := g.pattern.toList ++ g.inputs

/-- There are no inputs before there is a pattern. -/
def PatternFirst (g : Given) : Prop := g.pattern = none → g.inputs = []

theorem row_of_operands (same : g'.operands = g.operands) : g'.row = g.row := by
  obtain ⟨pattern, inputs⟩ := Prod.mk.inj same
  rw [row, row, pattern, inputs]

theorem PatternFirst.of_operands (first : g.PatternFirst) (same : g'.operands = g.operands) :
    g'.PatternFirst := by
  obtain ⟨pattern, inputs⟩ := Prod.mk.inj same
  rwa [PatternFirst, pattern, inputs]

theorem row_operand (first : g.PatternFirst) (one : g.operand takesInputs word = .ok g') :
    g'.PatternFirst ∧ g'.row = g.row ++ [word] := by
  unfold operand at one
  split at one
  · rename_i none
    obtain ⟨settled, settles, rest⟩ := exists_of_bind_eq_ok one
    obtain ⟨_, inputs⟩ := Prod.mk.inj (keeps_settle settles).1
    cases rest
    refine ⟨nofun, ?_⟩
    simp [row, none, inputs, first none]
  · rename_i given
    obtain ⟨settled, settles, rest⟩ := exists_of_bind_eq_ok one
    obtain ⟨pattern, inputs⟩ := Prod.mk.inj (keeps_settle settles).1
    cases rest
    refine ⟨fun none => ?_, ?_⟩
    · rw [← pattern] at given
      exact absurd (given.symm.trans none) nofun
    · simp [row, pattern, inputs]
  · contradiction

theorem eq_of_operand {text : String} (shape : Shape.ofWord word = .operand text) : text = word := by
  unfold Shape.ofWord at shape
  split at shape
  · contradiction
  · unfold longShape at shape
    split at shape <;> contradiction
  · contradiction
  · exact (Shape.operand.inj shape).symm

/-- What the words add to the row stands among them in that order. -/
theorem row_words (first : g.PatternFirst) (read : g.words takesInputs operandsOnly words = .ok g') :
    ∃ taken, taken.Sublist words ∧ g'.row = g.row ++ taken := by
  induction words generalizing g operandsOnly with
  | nil => exact ⟨[], .slnil, by rw [row_of_operands (keeps_settle read).1, List.append_nil]⟩
  | cons word words ih =>
    -- A word either becomes the next operand or leaves the operands alone.
    have next : ∀ {middle : Given} {only : Bool}, g.operand takesInputs word = .ok middle →
        middle.words takesInputs only words = .ok g' →
        ∃ taken, taken.Sublist (word :: words) ∧ g'.row = g.row ++ taken := by
      intro middle only one rest
      obtain ⟨still, added⟩ := row_operand first one
      obtain ⟨taken, among, whole⟩ := ih still rest
      exact ⟨word :: taken, among.cons_cons word, by rw [whole, added, List.append_assoc]; rfl⟩
    have apart : ∀ {middle : Given} {only : Bool}, middle.words takesInputs only words = .ok g' →
        middle.operands = g.operands →
        ∃ taken, taken.Sublist (word :: words) ∧ g'.row = g.row ++ taken := by
      intro middle only rest same
      obtain ⟨taken, among, whole⟩ := ih (first.of_operands same) rest
      exact ⟨taken, among.cons word, by rw [whole, row_of_operands same]⟩
    unfold Given.words at read
    split at read
    · obtain ⟨_, one, rest⟩ := exists_of_bind_eq_ok read
      exact next one rest
    · split at read
      · exact apart read rfl
      · obtain ⟨_, one, rest⟩ := exists_of_bind_eq_ok read
        exact apart rest (keeps_long one)
      · obtain ⟨_, one, rest⟩ := exists_of_bind_eq_ok read
        exact apart rest (keeps_short one)
      · exact apart read rfl
      · rename_i shape _
        obtain ⟨_, one, rest⟩ := exists_of_bind_eq_ok read
        exact next (eq_of_operand shape ▸ one) rest

end Order

end Given

end Thompson
