/-!
Why a text is no pattern, and where. Offsets count the UTF-8 bytes in front.
-/
namespace Thompson

inductive Expectation where
  | char (c : Char)
  | symbol
  | endOfInput
  deriving DecidableEq

inductive PatternError where
  | unexpected (expected : Expectation) (found : Option Char) (offset : Nat)
  | unterminatedGroup (opened offset : Nat)
  | inputEnds (offset : Nat)
  | tooDeep (limit offset : Nat)
  deriving DecidableEq

def quotedChar (c : Char) : String := "`" ++ c.toString ++ "`"

def Expectation.text : Expectation → String
  | .char c => quotedChar c
  | .symbol => "`a`, `b`, `e` or `(`"
  | .endOfInput => "end of input"

namespace PatternError

def message : PatternError → String
  | .unexpected expected found _ =>
    "expected " ++ expected.text ++ ", found " ++ (found.elim "end of input" quotedChar)
  | .unterminatedGroup opened _ =>
    "unterminated group: `(` at offset " ++ toString opened ++ " is never closed"
  | .inputEnds offset =>
    "expected a token at offset " ++ toString offset ++ ", found end of input"
  | .tooDeep limit _ => "recursion limit of " ++ toString limit ++ " exceeded"

def offset : PatternError → Nat
  | .unexpected _ _ offset => offset
  | .unterminatedGroup _ offset => offset
  | .inputEnds offset => offset
  | .tooDeep _ offset => offset

/-- The bytes in question: a character that was found, a group from its parenthesis
    on, or none. -/
def span : PatternError → Nat × Nat
  | .unexpected _ (some c) offset => (offset, offset + c.utf8Size)
  | .unterminatedGroup opened offset => (opened, offset)
  | error => (error.offset, error.offset)

def label : PatternError → String
  | .unexpected expected _ _ => "expected " ++ expected.text ++ " here"
  | .unterminatedGroup .. => "missing `)`"
  | .inputEnds _ => "pattern ends here"
  | .tooDeep .. => "nested too deeply"

end PatternError

/-!
A place in a text: what is still ahead, and how many bytes lie behind. A place
moves only past whole characters, and a step that fails moves nothing.
-/

structure Cursor where
  offset : Nat
  rest : List Char
  deriving DecidableEq

namespace Cursor

def ofText (text : List Char) : Cursor := ⟨0, text⟩

def peek (k : Cursor) : Except PatternError Char :=
  match k.rest with
  | [] => .error (.inputEnds k.offset)
  | c :: _ => .ok c

def next (k : Cursor) : Except PatternError (Char × Cursor) :=
  match k.rest with
  | [] => .error (.inputEnds k.offset)
  | c :: rest => .ok (c, ⟨k.offset + c.utf8Size, rest⟩)

def expect (k : Cursor) (expected : Char) : Except PatternError Cursor :=
  match k.rest with
  | [] => .error (.unexpected (.char expected) none k.offset)
  | c :: rest =>
    if c = expected then .ok ⟨k.offset + c.utf8Size, rest⟩
    else .error (.unexpected (.char expected) (some c) k.offset)

def hasMore (k : Cursor) : Bool := !k.rest.isEmpty

def nextIs (k : Cursor) (c : Char) : Bool := k.rest.head? == some c

end Cursor

/-!
A place in a text as a number of bytes. The text stays whole, and what is ahead is cut off behind
so many bytes for every question anew, which cannot be done inside a character. A cursor and a
number of bytes are asked the same questions.
-/

namespace Cursor

inductive Call where
  | peek
  | next
  | expect (c : Char)
  | hasMore
  | nextIs (c : Char)
  | rest
  deriving DecidableEq

inductive Answer where
  | char (c : Char)
  | done
  | truth (b : Bool)
  | text (s : String)
  | failed (e : PatternError)
  deriving DecidableEq

/-- The calls that go on when they do not fail. -/
def Call.moves : Call → Bool
  | .next | .expect _ => true
  | .peek | .hasMore | .nextIs _ | .rest => false

/-- What is taken by a call that was given an answer. -/
def Call.taken : Call → Answer → List Char
  | .next, .char c => [c]
  | .expect c, .done => [c]
  | _, _ => []

def taken (calls : List Call) (answers : List Answer) : List Char :=
  (calls.zipWith Call.taken answers).flatten

def Answer.ofChar : Except PatternError Char → Answer
  | .ok c => .char c
  | .error e => .failed e

def Answer.ofUnit : Except PatternError Unit → Answer
  | .ok () => .done
  | .error e => .failed e

def call (k : Cursor) : Call → Answer × Cursor
  | .peek => (.ofChar k.peek, k)
  | .next =>
    match k.next with
    | .ok (c, behind) => (.char c, behind)
    | .error e => (.failed e, k)
  | .expect c =>
    match k.expect c with
    | .ok behind => (.done, behind)
    | .error e => (.failed e, k)
  | .hasMore => (.truth k.hasMore, k)
  | .nextIs c => (.truth (k.nextIs c), k)
  | .rest => (.text (String.ofList k.rest), k)

def run (k : Cursor) : List Call → List Answer × Cursor
  | [] => ([], k)
  | c :: calls =>
    let (answer, k') := k.call c
    let (answers, last) := k'.run calls
    (answer :: answers, last)

end Cursor

structure ByteCursor where
  source : String
  position : Nat
  deriving DecidableEq

namespace ByteCursor

open Cursor (Call Answer)

def ofText (source : String) : ByteCursor := ⟨source, 0⟩

/-- What is ahead, where the text can be cut. -/
def rest? (b : ByteCursor) : Option String :=
  if String.Pos.Raw.isValid b.source ⟨b.position⟩ then
    some (String.Pos.Raw.extract b.source ⟨b.position⟩ b.source.rawEndPos)
  else none

def ahead? (b : ByteCursor) : Option (Option Char) := b.rest?.map fun rest => rest.toList.head?

def past (b : ByteCursor) (c : Char) : ByteCursor :=
  { b with position := b.position + c.utf8Size }

def peek? (b : ByteCursor) : Option (Except PatternError Char) :=
  b.ahead?.map fun
    | some c => .ok c
    | none => .error (.inputEnds b.position)

def next? (b : ByteCursor) : Option (Except PatternError Char × ByteCursor) :=
  b.peek?.map fun
    | .ok c => (.ok c, b.past c)
    | .error e => (.error e, b)

def expect? (b : ByteCursor) (expected : Char) :
    Option (Except PatternError Unit × ByteCursor) :=
  b.ahead?.map fun found =>
    if found = some expected then (.ok (), b.past expected)
    else (.error (.unexpected (.char expected) found b.position), b)

def hasMore (b : ByteCursor) : Bool := b.position < b.source.utf8ByteSize

def nextIs? (b : ByteCursor) (c : Char) : Option Bool := b.ahead?.map (· == some c)

/-- There is no answer where the text would be cut inside a character. -/
def call (b : ByteCursor) : Call → Option (Answer × ByteCursor)
  | .peek => b.peek?.map fun read => (.ofChar read, b)
  | .next => b.next?.map fun (read, b') => (.ofChar read, b')
  | .expect c => (b.expect? c).map fun (read, b') => (.ofUnit read, b')
  | .hasMore => some (.truth b.hasMore, b)
  | .nextIs c => (b.nextIs? c).map fun truth => (.truth truth, b)
  | .rest => b.rest?.map fun rest => (.text rest, b)

def run (b : ByteCursor) : List Call → Option (List Answer × ByteCursor)
  | [] => some ([], b)
  | c :: calls => do
    let (answer, b') ← b.call c
    let (answers, last) ← b'.run calls
    return (answer :: answers, last)

end ByteCursor

end Thompson
