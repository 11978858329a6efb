import Thompson.JsonTree
import Thompson.Proofs.Text.Separable
import Thompson.Text.Basic

/-!
What is printed as JSON is read back. Wherever a value may begin, the reader goes over the text of
the value and has it behind; a part of an array or object leaves the reader in that array or object,
with one part more. So no two values are printed alike.
-/
namespace Thompson.JsonTree

open Text (Separable.further Separable.further_cons Separable.intercalate_map_cons)

/-- The reader goes from one state over a text to another state. -/
def Leads (r : ReadState) (text : List Char) (next : ReadState) : Prop :=
  readFrom r text = some next

namespace Leads

variable {r middle next : ReadState} {c : Char} {u v : List Char}

theorem nil (r : ReadState) : Leads r [] r := rfl

theorem cons (one : readStep r c = some middle) (rest : Leads middle u next) :
    Leads r (c :: u) next := by
  rw [Leads, readFrom, List.foldlM_cons, one]
  exact rest

theorem append (first : Leads r u middle) (second : Leads middle v next) :
    Leads r (u ++ v) next := by
  rw [Leads, readFrom] at first
  rw [Leads, readFrom, List.foldlM_append, first]
  exact second

end Leads

section Blanks

variable {frames : List Frame} {before : List (String × JsonTree)} {value : JsonTree}
  {mayClose : Bool} {name : String}

def Idle (r : ReadState) : Prop := ∀ c, isBlank c = true → readStep r c = some r

theorem idle_value : Idle ⟨frames, .value mayClose⟩ := by
  intro c blank
  simp [readStep, blank]

theorem idle_name : Idle ⟨frames, .name before mayClose⟩ := by
  intro c blank
  simp [readStep, blank]

theorem idle_behind : Idle ⟨frames, .behind value⟩ := by
  intro c blank
  simp [readStep, blank]

theorem Idle.leads {r : ReadState} (idle : Idle r) {text : List Char}
    (blank : ∀ c ∈ text, isBlank c = true) : Leads r text r := by
  induction text with
  | nil => exact .nil r
  | cons c text ih =>
    exact .cons (idle c (blank c List.mem_cons_self))
      (ih fun d hd => blank d (List.mem_cons_of_mem c hd))

theorem blank_newLine (level : Nat) : ∀ c ∈ (newLine level).toList, isBlank c = true := by
  intro c hc
  rw [newLine, String.toList_append, Text.toList_pushn, String.toList_empty, List.nil_append,
    List.mem_append] at hc
  rcases hc with lineBreak | blank
  · have same : c = '\n' := by simpa using lineBreak
    rw [same]
    decide
  · rw [List.eq_of_mem_replicate blank]
    decide

theorem Idle.leads_newLine {r : ReadState} (idle : Idle r) (level : Nat) :
    Leads r (newLine level).toList r :=
  idle.leads (blank_newLine level)

end Blanks

section Strings

variable {frames : List Frame} {use : StringUse} {before : List Char}

theorem hexDigit?_digitChar : ∀ d < 16, hexDigit? (Nat.digitChar d) = some d := by decide

theorem stringStep_number {value left d : Nat} (small : d < 16) (more : left ≠ 1) :
    stringStep before (.number value left) (Nat.digitChar d) =
      some (before, .number (16 * value + d) (left - 1)) := by
  simp [stringStep, hexDigit?_digitChar d small, more]

theorem stringStep_last {value d : Nat} (small : d < 16) (valid : (16 * value + d).isValidChar) :
    stringStep before (.number value 1) (Nat.digitChar d) =
      some (Char.ofNat (16 * value + d) :: before, .plain) := by
  simp [stringStep, hexDigit?_digitChar d small, valid]

theorem leads_string {pending pending' : Pending} {before' : List Char} {c : Char}
    (one : stringStep before pending c = some (before', pending'))
    (inside : c = '"' → pending ≠ .plain) :
    Leads ⟨frames, .string use before pending⟩ [c] ⟨frames, .string use before' pending'⟩ := by
  refine .cons ?_ (.nil _)
  simp only [readStep]
  split
  · exact absurd rfl (inside rfl)
  · rw [one]
    rfl

theorem leads_escaped {c d : Char} (letter : unescape? c = some d) (noNumber : c ≠ 'u') :
    Leads ⟨frames, .string use before .plain⟩ ['\\', c]
      ⟨frames, .string use (d :: before) .plain⟩ := by
  have backslash : Leads ⟨frames, .string use before .plain⟩ ['\\']
      ⟨frames, .string use before .backslash⟩ := leads_string rfl (by simp)
  refine backslash.append (leads_string ?_ (by simp))
  unfold stringStep
  split <;> simp_all

theorem leads_number {c : Char} (control : c.toNat < 0x20) :
    Leads ⟨frames, .string use before .plain⟩
      ['\\', 'u', '0', '0', Nat.digitChar (c.toNat / 16), Nat.digitChar (c.toNat % 16)]
      ⟨frames, .string use (c :: before) .plain⟩ := by
  have high : c.toNat / 16 < 16 := by omega
  have low : c.toNat % 16 < 16 := Nat.mod_lt _ (by decide)
  have value : 16 * (16 * 0 + c.toNat / 16) + c.toNat % 16 = c.toNat := by omega
  have begun : Leads ⟨frames, .string use before .plain⟩ ['\\', 'u', '0', '0']
      ⟨frames, .string use before (.number 0 2)⟩ := rfl
  have first : Leads ⟨frames, .string use before (.number 0 2)⟩ [Nat.digitChar (c.toNat / 16)]
      ⟨frames, .string use before (.number (16 * 0 + c.toNat / 16) 1)⟩ :=
    leads_string (stringStep_number high (by decide)) (by simp)
  have last : Leads ⟨frames, .string use before (.number (16 * 0 + c.toNat / 16) 1)⟩
      [Nat.digitChar (c.toNat % 16)] ⟨frames, .string use
        (Char.ofNat (16 * (16 * 0 + c.toNat / 16) + c.toNat % 16) :: before) .plain⟩ :=
    leads_string (stringStep_last low (by rw [value]; exact c.valid)) (by simp)
  rw [value, Char.ofNat_toNat] at last
  exact begun.append (first.append last)

theorem leads_escapeChar (c : Char) :
    Leads ⟨frames, .string use before .plain⟩ (escapeChar c)
      ⟨frames, .string use (c :: before) .plain⟩ := by
  unfold escapeChar
  split
  · exact leads_escaped rfl (by decide)
  · exact leads_escaped rfl (by decide)
  · exact leads_escaped rfl (by decide)
  · exact leads_escaped rfl (by decide)
  · exact leads_escaped rfl (by decide)
  · exact leads_escaped rfl (by decide)
  · exact leads_escaped rfl (by decide)
  · rename_i noQuote noBackslash _ _ _ _ _
    -- Without an escape of its own, a control is written by its number, the rest as it is.
    split
    · rename_i control
      exact leads_number control
    · rename_i visible
      refine leads_string ?_ fun quote => absurd quote noQuote
      unfold stringStep
      split <;> simp_all

theorem leads_escaped_text (text : List Char) :
    Leads ⟨frames, .string use before .plain⟩ (text.flatMap escapeChar)
      ⟨frames, .string use (text.reverse ++ before) .plain⟩ := by
  induction text generalizing before with
  | nil => exact .nil _
  | cons c text ih =>
    rw [List.flatMap_cons, List.reverse_cons, List.append_assoc]
    exact (leads_escapeChar c).append ih

variable (use) in
theorem leads_stringText {r : ReadState} (s : String)
    (opens : readStep r '"' = some ⟨frames, .string use [] .plain⟩) :
    Leads r (stringText s).toList ⟨frames, use.place s⟩ := by
  have closes : Leads ⟨frames, .string use (s.toList.reverse ++ []) .plain⟩ ['"']
      ⟨frames, use.place s⟩ := by
    rw [List.append_nil]
    refine .cons ?_ (.nil _)
    simp only [readStep, List.reverse_reverse, String.ofList_toList]
  rw [stringText, String.toList_ofList]
  exact .cons opens ((leads_escaped_text s.toList).append closes)

end Strings

section Blocks

variable {frames : List Frame} {mayClose : Bool}

def furtherParts (level : Nat) (parts : List String) : List Char :=
  Separable.further ("," ++ newLine level).toList String.toList parts

theorem toList_block_nil (opening closing : String) (level : Nat) :
    (block opening closing level []).toList = opening.toList ++ closing.toList := by
  rw [block, String.toList_append]

theorem toList_block (opening closing : String) (level : Nat) (part : String)
    (parts : List String) :
    (block opening closing level (part :: parts)).toList =
      opening.toList ++ ((newLine (level + 1)).toList ++ (part.toList ++
        (furtherParts (level + 1) parts ++ ((newLine level).toList ++ closing.toList)))) := by
  have joined : ("," ++ newLine (level + 1)).toList.intercalate ((part :: parts).map String.toList) =
      part.toList ++ Separable.further ("," ++ newLine (level + 1)).toList String.toList parts :=
    Separable.intercalate_map_cons part parts
  simp only [String.toList_append] at joined
  simp only [block, String.toList_append, String.toList_intercalate, joined, furtherParts,
    List.append_assoc]

theorem leads_furtherParts {r middle next : ReadState} {level : Nat} {part : String}
    {parts : List String} {behind : List Char} (comma : readStep r ',' = some middle)
    (idle : Idle middle) (rest : Leads middle (part.toList ++ (furtherParts level parts ++ behind))
      next) :
    Leads r (furtherParts level (part :: parts) ++ behind) next := by
  have laidOut : furtherParts level (part :: parts) ++ behind =
      ',' :: ((newLine level).toList ++ (part.toList ++ (furtherParts level parts ++ behind))) := by
    simp only [furtherParts, Separable.further_cons, String.toList_append, List.append_assoc]
    rfl
  rw [laidOut]
  exact .cons comma ((idle.leads_newLine level).append rest)

theorem leads_name {before : List (String × JsonTree)} {next : ReadState} {behind : List Char}
    (name : String) (rest : Leads ⟨.fields before name :: frames, .value false⟩ behind next) :
    Leads ⟨frames, .name before mayClose⟩
      ((stringText name).toList ++ (": ".toList ++ behind)) next := by
  have named : Leads ⟨frames, .name before mayClose⟩ (stringText name).toList
      ⟨frames, .colon before name⟩ :=
    leads_stringText (.name before) name (by cases mayClose <;> rfl)
  have colon : Leads ⟨frames, .colon before name⟩ ": ".toList
      ⟨.fields before name :: frames, .value false⟩ := rfl
  exact named.append (colon.append rest)

mutual

theorem leads_pretty (level : Nat) (frames : List Frame) (mayClose : Bool) :
    (j : JsonTree) → Leads ⟨frames, .value mayClose⟩ (j.pretty level).toList ⟨frames, .behind j⟩
  | .bool b => by
    rw [pretty]
    cases b <;> cases mayClose <;> rfl
  | .string s => by
    rw [pretty]
    exact leads_stringText .value s (by cases mayClose <;> rfl)
  | .array [] => by
    rw [pretty, prettyItems, toList_block_nil]
    cases mayClose <;> rfl
  | .array (item :: items) => by
    rw [pretty, prettyItems, toList_block]
    have opens : readStep ⟨frames, .value mayClose⟩ '[' =
        some ⟨.items [] :: frames, .value true⟩ := by cases mayClose <;> rfl
    refine .append (.cons opens (.nil _)) ((idle_value.leads_newLine _).append ?_)
    exact (leads_pretty (level + 1) _ true item).append (leads_items level frames [] item items)
  | .object [] => by
    rw [pretty, prettyFields, toList_block_nil]
    cases mayClose <;> rfl
  | .object ((name, value) :: fields) => by
    rw [pretty, prettyFields, toList_block]
    have opens : readStep ⟨frames, .value mayClose⟩ '\x7b' =
        some ⟨frames, .name [] true⟩ := by cases mayClose <;> rfl
    refine .append (.cons opens (.nil _)) ((idle_name.leads_newLine _).append ?_)
    have rest := (leads_pretty (level + 1) (.fields [] name :: frames) false value).append
      (leads_fields level frames [] name value fields)
    simp only [String.toList_append, List.append_assoc] at rest ⊢
    exact leads_name name rest

theorem leads_items (level : Nat) (frames : List Frame) (before : List JsonTree)
    (value : JsonTree) : (items : List JsonTree) →
    Leads ⟨.items before :: frames, .behind value⟩
      (furtherParts (level + 1) (prettyItems (level + 1) items) ++
        ((newLine level).toList ++ "]".toList))
      ⟨frames, .behind (.array (before.reverse ++ value :: items))⟩
  | [] => by
    have closes : readStep ⟨.items before :: frames, .behind value⟩ ']' =
        some ⟨frames, .behind (.array (before.reverse ++ [value]))⟩ := by
      rw [← List.reverse_cons]
      rfl
    exact (idle_behind.leads_newLine level).append (.cons closes (.nil _))
  | item :: items => by
    have rest := (leads_pretty (level + 1) (.items (value :: before) :: frames) false item).append
      (leads_items level frames (value :: before) item items)
    rw [List.reverse_cons, List.append_assoc] at rest
    rw [prettyItems]
    exact leads_furtherParts rfl idle_value rest

theorem leads_fields (level : Nat) (frames : List Frame) (before : List (String × JsonTree))
    (name : String) (value : JsonTree) : (fields : List (String × JsonTree)) →
    Leads ⟨.fields before name :: frames, .behind value⟩
      (furtherParts (level + 1) (prettyFields (level + 1) fields) ++
        ((newLine level).toList ++ "\x7d".toList))
      ⟨frames, .behind (.object (before.reverse ++ (name, value) :: fields))⟩
  | [] => by
    have closes : readStep ⟨.fields before name :: frames, .behind value⟩ '\x7d' =
        some ⟨frames, .behind (.object (before.reverse ++ [(name, value)]))⟩ := by
      rw [← List.reverse_cons]
      rfl
    exact (idle_behind.leads_newLine level).append (.cons closes (.nil _))
  | (name', value') :: fields => by
    have rest := (leads_pretty (level + 1) (.fields ((name, value) :: before) name' :: frames) false
      value').append (leads_fields level frames ((name, value) :: before) name' value' fields)
    rw [List.reverse_cons, List.append_assoc] at rest
    rw [prettyFields]
    refine leads_furtherParts rfl idle_name ?_
    simp only [String.toList_append, List.append_assoc]
    exact leads_name name' rest

end

end Blocks

theorem ofText?_text_append (j : JsonTree) {behind : String}
    (blank : ∀ c ∈ behind.toList, isBlank c = true) : ofText? (j.text ++ behind) = some j := by
  have read := (leads_pretty 0 [] false j).append (idle_behind.leads blank)
  rw [Leads] at read
  rw [ofText?, text, String.toList_append, read]

/-- A value is read from its text. -/
theorem ofText?_text (j : JsonTree) : ofText? j.text = some j := by
  rw [← String.append_empty (s := j.text)]
  exact ofText?_text_append j (by simp)

end Thompson.JsonTree
