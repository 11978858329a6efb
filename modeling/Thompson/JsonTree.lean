/-!
JSON as it is printed: two blanks for each level, one element or field on a line,
fields in the order given, and an empty array closed at once.
-/
namespace Thompson

inductive JsonTree where
  | bool (b : Bool)
  | string (s : String)
  | array (items : List JsonTree)
  | object (fields : List (String × JsonTree))

namespace JsonTree

/-- Only quotes, backslashes and controls are escaped; five controls have a letter. -/
def escapeChar (c : Char) : List Char :=
  match c with
  | '"' => ['\\', '"']
  | '\\' => ['\\', '\\']
  | '\n' => ['\\', 'n']
  | '\x0d' => ['\\', 'r']
  | '\t' => ['\\', 't']
  | '\x08' => ['\\', 'b']
  | '\x0c' => ['\\', 'f']
  | c => if c.toNat < 0x20 then
      ['\\', 'u', '0', '0', Nat.digitChar (c.toNat / 16), Nat.digitChar (c.toNat % 16)]
    else [c]

def stringText (s : String) : String := String.ofList ('"' :: s.toList.flatMap escapeChar ++ ['"'])

def newLine (level : Nat) : String := "\n" ++ "".pushn ' ' (2 * level)

def block (opening closing : String) (level : Nat) : List String → String
  | [] => opening ++ closing
  | parts => opening ++ newLine (level + 1) ++ ("," ++ newLine (level + 1)).intercalate parts ++
      newLine level ++ closing

mutual

def pretty (level : Nat) : JsonTree → String
  | .bool b => if b then "true" else "false"
  | .string s => stringText s
  | .array items => block "[" "]" level (prettyItems (level + 1) items)
  | .object fields => block "\x7b" "\x7d" level (prettyFields (level + 1) fields)

def prettyItems (level : Nat) : List JsonTree → List String
  | [] => []
  | item :: items => item.pretty level :: prettyItems level items

def prettyFields (level : Nat) : List (String × JsonTree) → List String
  | [] => []
  | (name, value) :: fields =>
    (stringText name ++ ": " ++ value.pretty level) :: prettyFields level fields

end

def text (j : JsonTree) : String := j.pretty 0

end JsonTree

end Thompson

/-!
Reading JSON, a character at a time. The reader keeps the arrays and objects that are open, each
with what it holds so far. Blanks and line breaks count between the parts but not for them, so a
text is read however it is laid out. Numbers, `null` and pairs of surrogates are not read.
-/
namespace Thompson.JsonTree

/-- An array or object that is open, with what it holds so far, the last part first. An object waits
    for the value of a name. -/
inductive Frame where
  | items (before : List JsonTree)
  | fields (before : List (String × JsonTree)) (name : String)

/-- What a string is read for. -/
inductive StringUse where
  | value
  | name (before : List (String × JsonTree))

/-- The part of an escape that was read: nothing, a backslash, or a number with so many hexadecimal
    digits to come. -/
inductive Pending where
  | plain
  | backslash
  | number (value left : Nat)

/-- What the next character finds. Behind an opening bracket it may close what was opened. -/
inductive Place where
  | value (mayClose : Bool)
  | name (before : List (String × JsonTree)) (mayClose : Bool)
  | colon (before : List (String × JsonTree)) (name : String)
  | behind (value : JsonTree)
  | string (use : StringUse) (before : List Char) (pending : Pending)
  | word (left : List Char) (value : JsonTree)

structure ReadState where
  frames : List Frame
  place : Place

def isBlank (c : Char) : Bool := c = ' ' ∨ c = '\n' ∨ c = '\t' ∨ c = '\x0d'

def hexDigit? (c : Char) : Option Nat :=
  if c.isDigit then some (c.toNat - '0'.toNat)
  else if 'a' ≤ c ∧ c ≤ 'f' then some (c.toNat - 'a'.toNat + 10)
  else if 'A' ≤ c ∧ c ≤ 'F' then some (c.toNat - 'A'.toNat + 10)
  else none

def unescape? : Char → Option Char
  | '"' => some '"'
  | '\\' => some '\\'
  | '/' => some '/'
  | 'n' => some '\n'
  | 'r' => some '\x0d'
  | 't' => some '\t'
  | 'b' => some '\x08'
  | 'f' => some '\x0c'
  | _ => none

/-- One character inside a string: the characters so far, the last one first, and what is pending.
    -/
def stringStep (before : List Char) : Pending → Char → Option (List Char × Pending)
  | .plain, '\\' => some (before, .backslash)
  | .plain, c => if c.toNat < 0x20 then none else some (c :: before, .plain)
  | .backslash, 'u' => some (before, .number 0 4)
  | .backslash, c => (unescape? c).map fun d => (d :: before, .plain)
  | .number value left, c => do
    let value := 16 * value + (← hexDigit? c)
    if left ≠ 1 then some (before, .number value (left - 1))
    else if value.isValidChar then some (Char.ofNat value :: before, .plain)
    else none

def StringUse.place (text : String) : StringUse → Place
  | .value => .behind (.string text)
  | .name before => .colon before text

def beginValue? (frames : List Frame) : Char → Option ReadState
  | '"' => some ⟨frames, .string .value [] .plain⟩
  | '[' => some ⟨.items [] :: frames, .value true⟩
  | '\x7b' => some ⟨frames, .name [] true⟩
  | 't' => some ⟨frames, .word ['r', 'u', 'e'] (.bool true)⟩
  | 'f' => some ⟨frames, .word ['a', 'l', 's', 'e'] (.bool false)⟩
  | _ => none

def endValue? (frames : List Frame) (value : JsonTree) (c : Char) : Option ReadState :=
  match frames, c with
  | .items before :: outer, ',' => some ⟨.items (value :: before) :: outer, .value false⟩
  | .items before :: outer, ']' => some ⟨outer, .behind (.array (value :: before).reverse)⟩
  | .fields before name :: outer, ',' => some ⟨outer, .name ((name, value) :: before) false⟩
  | .fields before name :: outer, '\x7d' =>
    some ⟨outer, .behind (.object ((name, value) :: before).reverse)⟩
  | _, _ => none

def readStep (r : ReadState) (c : Char) : Option ReadState :=
  match r.place with
  | .value mayClose =>
    if isBlank c then some r
    else match mayClose, c, r.frames with
      | true, ']', .items _ :: outer => some ⟨outer, .behind (.array [])⟩
      | _, c, frames => beginValue? frames c
  | .name before mayClose =>
    if isBlank c then some r
    else match mayClose, c with
      | true, '\x7d' => some ⟨r.frames, .behind (.object [])⟩
      | _, '"' => some ⟨r.frames, .string (.name before) [] .plain⟩
      | _, _ => none
  | .colon before name =>
    if isBlank c then some r
    else if c = ':' then some ⟨.fields before name :: r.frames, .value false⟩ else none
  | .behind value => if isBlank c then some r else endValue? r.frames value c
  | .string use before pending =>
    match pending, c with
    | .plain, '"' => some ⟨r.frames, use.place (String.ofList before.reverse)⟩
    | pending, c => (stringStep before pending c).map fun (before, pending) =>
      ⟨r.frames, .string use before pending⟩
  | .word left value =>
    match left with
    | [] => none
    | [d] => if c = d then some ⟨r.frames, .behind value⟩ else none
    | d :: left => if c = d then some ⟨r.frames, .word left value⟩ else none

def readFrom (r : ReadState) (text : List Char) : Option ReadState := text.foldlM readStep r

def ofText? (text : String) : Option JsonTree :=
  match readFrom ⟨[], .value false⟩ text.toList with
  | some ⟨[], .behind value⟩ => some value
  | _ => none

end Thompson.JsonTree
