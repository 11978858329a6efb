import Thompson.Pattern.Cursor
import Thompson.Text.Columns

/-!
An error shown under the text it was found in. The first line of the text is
printed behind a gutter; carets stand below the place where reading stopped, and
a group that is never closed has its parenthesis marked as well. Where reading
stopped at the line break, a bracket leads to the second line.
-/
namespace Thompson

open Text

/-- What is known of the text: its source, where it came from, and whether the
    reader of the message sees colours. -/
structure Excerpt where
  source : String
  path : Option String := none
  colored : Bool := false

/-- An empty range takes in one more byte, unless the text ends there. -/
def widen (range : Nat × Nat) (length : Nat) : Nat × Nat :=
  if range.1 = range.2 then (range.1, min (range.1 + 1) length) else range

/-- The bytes that carets are put under: not the whole of an open group, but the
    place where its parenthesis was expected. -/
def PatternError.caretRange (e : PatternError) (length : Nat) : Nat × Nat :=
  match e with
  | .unterminatedGroup _ offset => widen (offset, offset) length
  | e => widen e.span length

def PatternError.groupRange : PatternError → Option (Nat × Nat)
  | .unterminatedGroup opened _ => some (opened, opened + 1)
  | _ => none

def charsBefore : Nat → List Char → List Char
  | _, [] => []
  | 0, _ => []
  | offset, c :: cs => c :: charsBefore (offset - c.utf8Size) cs

/-- How many marks a range takes: as many as its columns, and at least one. -/
def markWidth (range : Nat × Nat) (cs : List Char) : Nat :=
  max 1 (columns (charsBefore range.2 cs) - columns (charsBefore range.1 cs))

/-- Up to the first line break, which may be a carriage return and a line feed. -/
def firstLine (cs : List Char) : List Char :=
  let line := cs.takeWhile (· ≠ '\n')
  if line.length < cs.length ∧ line.getLast? = some '\x0d' then line.dropLast else line

def laterLines (cs : List Char) : List Char := (cs.dropWhile (· ≠ '\n')).drop 1

/-- Whether a range takes in the first line break and so ends on a second line. -/
def runsOn (range : Nat × Nat) (cs : List Char) : Bool :=
  (charsBefore range.2 cs).contains '\n' && !(laterLines cs).isEmpty

namespace Excerpt

def red : String := "\x1b[1m\x1b[91m"
def blue : String := "\x1b[1m\x1b[94m"
def bold : String := "\x1b[1m"

def paint (x : Excerpt) (colour text : String) : String :=
  if x.colored then colour ++ text ++ "\x1b[0m" else text

def blanks (n : Nat) : String := "".pushn ' ' n

def marks (x : Excerpt) (colour : String) (mark : Char) (n : Nat) : String :=
  x.paint colour ("".pushn mark n)

def below (x : Excerpt) (column : Nat) (text : String) : String :=
  "  " ++ x.paint blue "|" ++ " " ++ blanks column ++ text

/-- A message of several lines goes on below its own beginning. -/
def title (x : Excerpt) (message : String) : List String :=
  match message.splitOn "\n" with
  | [] => []
  | first :: rest =>
    (x.paint red "error" ++ x.paint bold (": " ++ shownText first)) ::
      rest.map fun line => blanks "error: ".length ++ x.paint bold (shownText line)

/-- The path, the only line there is, and the character where the carets begin. -/
def place (x : Excerpt) (characters : Nat) : List String :=
  x.path.toList.map fun path =>
    " " ++ x.paint blue "--> " ++ path ++ ":1:" ++ toString (characters + 1)

def shownLine (cs : List Char) : String := String.ofList ((firstLine cs).flatMap shown)

def numbered (x : Excerpt) (n : Nat) (text : String) : String :=
  x.paint blue (toString n) ++ " " ++ x.paint blue "|" ++
    if text.isEmpty then "" else " " ++ text

/-- How far right of a parenthesis the caret has to be for both to fit on one line. -/
def sameLineDistance : Nat := 20

/-- The parenthesis at `column` and the caret further on. The parenthesis has its
    label beside it where there is room, and below it otherwise. -/
def groupLines (x : Excerpt) (column width caret : Nat) (caretText : String) : List String :=
  let opening := x.marks blue '-' width
  let label := "group opened here"
  if column + sameLineDistance ≤ caret then
    [x.below column (opening ++ " " ++ x.paint blue label ++
      blanks (caret - (column + width + 1 + label.length)) ++ caretText)]
  else
    [x.below column (opening ++ blanks (caret - (column + width)) ++ caretText),
      x.below column (x.paint blue "|"), x.below column (x.paint blue label)]

/-- The first line and the marks below it. The label is written as it is, unlike the
    message and the text. -/
def lineWithMarks (x : Excerpt) (e : PatternError) (range : Nat × Nat) (cs : List Char) :
    List String :=
  let line := firstLine cs
  let caret := columns (charsBefore range.1 line)
  let caretText := x.marks red '^' (markWidth range line) ++ " " ++ x.paint red e.label
  x.numbered 1 (shownLine cs) :: match e.groupRange with
  | some group =>
    x.groupLines (columns (charsBefore group.1 line)) (markWidth group line) caret caretText
  | none => [x.below caret caretText]

def beside (x : Excerpt) (bracket line : String) : String :=
  x.paint red bracket ++ if line.isEmpty then "" else " " ++ line

/-- Two lines and a bracket from the line break of the first to the second. It begins
    beside the first line if nothing stands there before the line break, else below. -/
def linesInBracket (x : Excerpt) (e : PatternError) (range : Nat × Nat) (cs : List Char) :
    List String :=
  let before := charsBefore range.1 (firstLine cs)
  let opening :=
    if before.all Char.isWhitespace then [x.numbered 1 (x.beside "/" (shownLine cs))]
    else [x.numbered 1 ("  " ++ shownLine cs),
      x.below 1 (x.paint red ("".pushn '_' (columns before + 1) ++ "^"))]
  opening ++ [x.numbered 2 (x.beside "|" (shownLine (laterLines cs))),
    x.below 0 (x.paint red "|_^" ++ " " ++ x.paint red e.label)]

def lines (x : Excerpt) (e : PatternError) : List String :=
  let cs := x.source.toList
  let range := e.caretRange x.source.utf8ByteSize
  x.title e.message ++ x.place (charsBefore range.1 cs).length ++ ["  " ++ x.paint blue "|"] ++
    if e.groupRange.isNone && runsOn range cs then x.linesInBracket e range cs
    else x.lineWithMarks e range cs

end Excerpt

/-- The message alone, if the text is not known. -/
def PatternError.render (e : PatternError) : Option Excerpt → String
  | none => e.message
  | some x => "\n".intercalate (x.lines e)

end Thompson
