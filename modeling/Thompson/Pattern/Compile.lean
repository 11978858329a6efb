import Thompson.Pattern.Construction

/-!
Reading a pattern from left to right, without looking back. The grammar is

    regex  = term, or term "|" regex
    term   = any number of factors
    factor = base, followed by any number of "*"
    base   = "(" regex ")", or "a", or "b", or "e"

The reader keeps the groups that are open, and for each of them the alternation
around it. A character first settles what stands before it and then acts. Branches
are joined from the right when their alternation is complete.
-/
namespace Thompson

variable {σ α β : Type}

/-- An alternation under way: its finished branches, the last one first, and the
    term that the current branch has come to. -/
structure Branches (α : Type) where
  done : List α
  term : α

/-- What the next character finds: a parenthesis just opened, a place where a
    factor may begin, or a factor that may be repeated. -/
inductive Focus (α : Type) where
  | opened
  | term (here : Branches α)
  | factor (here : Branches α) (value : α)

/-- An open group: where its parenthesis is, and the alternation around it. -/
structure Group (α : Type) where
  opened : Nat
  outer : Branches α

structure Config (σ α : Type) where
  offset : Nat
  supply : σ
  groups : List (Group α)
  focus : Focus α

structure Reading (σ α β : Type) where
  log : List (Entry σ β)
  outcome : Except PatternError α

namespace Reader

/-- The rules around the given number of groups fail, from the inside out. -/
def unwind (levels : Nat) (error : PatternError) (offset : Nat) (s : σ) : List (Entry σ β) :=
  (List.replicate levels [Rule.base, .factor, .term, .regex]).flatten.map fun rule =>
    ⟨.fail rule error, offset, s⟩

def depthError? (limit : Option Nat) (depth offset : Nat) : Option PatternError :=
  limit.bind fun n => if n ≤ depth then some (.tooDeep n offset) else none

variable (K : Construction σ α β)

/-- Completes what stands before the next character: a group that was just opened
    begins its first branch, and a factor joins its term. -/
def settle (offset : Nat) (s : σ) : Focus α → List (Entry σ β) × Branches α × σ
  | .opened =>
    let (empty, s') := K.empty s
    ([⟨.enter .regex offset, offset, s⟩, ⟨.enter .term offset, offset, s⟩,
      ⟨.build .empty (K.describe empty), offset, s'⟩], ⟨[], empty⟩, s')
  | .term here => ([], here, s)
  | .factor here value =>
    let term := K.concatenate here.term value
    ([⟨.leave .factor (K.describe value), offset, s⟩,
      ⟨.build .concatenate (K.describe term), offset, s⟩], ⟨here.done, term⟩, s)

/-- Joins finished branches to the value of those behind them, the last branch first. -/
def unite (offset : Nat) (s : σ) : List α → α → List (Entry σ β) × α × σ
  | [], value => ([], value, s)
  | branch :: done, value =>
    let (joined, s') := K.union branch value s
    let (log, whole, s'') := unite offset s' done joined
    (⟨.build .union (K.describe joined), offset, s'⟩ :: log, whole, s'')

def close (offset : Nat) (s : σ) (here : Branches α) : List (Entry σ β) × α × σ :=
  let (log, whole, s') := unite K offset s here.done (K.stamp here.term)
  (⟨.leave .term (K.describe here.term), offset, s⟩ :: log ++
    [⟨.leave .regex (K.describe whole), offset, s'⟩], whole, s')

def bar (offset : Nat) (s : σ) (groups : List (Group α)) (here : Branches α) :
    List (Entry σ β) × Config σ α :=
  let (empty, s') := K.empty s
  ([⟨.leave .term (K.describe here.term), offset, s⟩,
    ⟨.enter .term (offset + '|'.utf8Size), offset + '|'.utf8Size, s⟩,
    ⟨.build .empty (K.describe empty), offset + '|'.utf8Size, s'⟩],
    ⟨offset + '|'.utf8Size, s', groups, .term ⟨K.stamp here.term :: here.done, empty⟩⟩)

/-- A closing parenthesis completes the alternation; with no group open it is one too many. -/
def closeGroup (offset : Nat) (s : σ) (groups : List (Group α)) (here : Branches α) :
    List (Entry σ β) × Except PatternError (Config σ α) :=
  let (log, whole, s') := close K offset s here
  match groups with
  | [] => (log, .error (.unexpected .endOfInput (some ')') offset))
  | group :: outer =>
    (log ++ [⟨.leave .base (K.describe whole), offset + ')'.utf8Size, s'⟩],
      .ok ⟨offset + ')'.utf8Size, s', outer, .factor group.outer whole⟩)

def openGroup (limit : Option Nat) (offset : Nat) (s : σ) (groups : List (Group α))
    (here : Branches α) : List (Entry σ β) × Except PatternError (Config σ α) :=
  match depthError? limit groups.length offset with
  | some error => (unwind (groups.length + 1) error offset s, .error error)
  | none => ([], .ok ⟨offset + '('.utf8Size, s, ⟨offset, here⟩ :: groups, .opened⟩)

def literal (c : Char) (offset : Nat) (s : σ) (groups : List (Group α)) (here : Branches α) :
    List (Entry σ β) × Except PatternError (Config σ α) :=
  if isSymbol c ∨ c = emptyMark then
    let (value, s') := K.primitive c s
    ([⟨.build (.primitive c) (K.describe value), offset + c.utf8Size, s'⟩,
      ⟨.leave .base (K.describe value), offset + c.utf8Size, s'⟩],
      .ok ⟨offset + c.utf8Size, s', groups, .factor here value⟩)
  else
    let error := .unexpected .symbol (some c) offset
    (unwind (groups.length + 1) error offset s, .error error)

/-- What a character does at a place where a factor may begin. -/
def act (limit : Option Nat) (offset : Nat) (s : σ) (groups : List (Group α)) (here : Branches α)
    (c : Char) : List (Entry σ β) × Except PatternError (Config σ α) :=
  match c with
  | '|' => let (log, next) := bar K offset s groups here; (log, .ok next)
  | ')' => closeGroup K offset s groups here
  | c =>
    let (log, next) := if c = '(' then openGroup limit offset s groups here
      else literal K c offset s groups here
    (⟨.enter .factor offset, offset, s⟩ :: ⟨.enter .base offset, offset, s⟩ :: log, next)

def star (cfg : Config σ α) (here : Branches α) (value : α) : List (Entry σ β) × Config σ α :=
  let (repeated, s') := K.repetition value cfg.supply
  ([⟨.build .repetition (K.describe repeated), cfg.offset + '*'.utf8Size, s'⟩],
    { cfg with offset := cfg.offset + '*'.utf8Size, supply := s', focus := .factor here repeated })

def step (limit : Option Nat) (cfg : Config σ α) (c : Char) :
    List (Entry σ β) × Except PatternError (Config σ α) :=
  match cfg.focus, c with
  | .factor here value, '*' => let (log, next) := star K cfg here value; (log, .ok next)
  | focus, c =>
    let (settled, here, s) := settle K cfg.offset cfg.supply focus
    let (log, next) := act K limit cfg.offset s cfg.groups here c
    (settled ++ log, next)

def finish (cfg : Config σ α) : Reading σ α β :=
  match cfg.focus with
  | .opened =>
    let error := .inputEnds cfg.offset
    ⟨unwind cfg.groups.length error cfg.offset cfg.supply, .error error⟩
  | focus =>
    let (settled, here, s) := settle K cfg.offset cfg.supply focus
    let (log, whole, s') := close K cfg.offset s here
    match cfg.groups with
    | [] => ⟨settled ++ log, .ok whole⟩
    | group :: _ =>
      let error := .unterminatedGroup group.opened cfg.offset
      ⟨settled ++ log ++ unwind cfg.groups.length error cfg.offset s', .error error⟩

/-- The characters of a text in turn, up to the first that has no place. -/
def advance (limit : Option Nat) (cfg : Config σ α) :
    List Char → List (Entry σ β) × Except PatternError (Config σ α)
  | [] => ([], .ok cfg)
  | c :: cs =>
    match step K limit cfg c with
    | (log, .error error) => (log, .error error)
    | (log, .ok next) =>
      let (more, last) := advance limit next cs
      (log ++ more, last)

def start (s : σ) : List (Entry σ β) × Config σ α :=
  let (log, here, s') := settle K 0 s .opened
  (log, ⟨0, s', [], .term here⟩)

/-- The whole text. No limit means that groups may nest to any depth. -/
def read (limit : Option Nat) (s : σ) (text : List Char) : Reading σ α β :=
  let (begun, cfg) := start K s
  match advance K limit cfg text with
  | (log, .error error) => ⟨begun ++ log, .error error⟩
  | (log, .ok last) =>
    let rest := finish K last
    ⟨begun ++ log ++ rest.log, rest.outcome⟩

/-- Reading goes on where it left off. -/
theorem advance_append (limit : Option Nat) (cfg : Config σ α) (u v : List Char) :
    advance K limit cfg (u ++ v) =
      match advance K limit cfg u with
      | (log, .error error) => (log, .error error)
      | (log, .ok next) =>
        let (more, last) := advance K limit next v
        (log ++ more, last) := by
  induction u generalizing cfg with
  | nil => simp [advance]
  | cons c u ih =>
    simp only [List.cons_append, advance]
    rcases step K limit cfg c with ⟨log, error | next⟩
    · rfl
    · simp only [ih]
      rcases advance K limit next u with ⟨more, error | last⟩ <;> simp

end Reader

/-!
From the text of a pattern to its automaton.
-/

def defaultLimit : Option Nat := some 256

def readPattern (limit : Option Nat) (pattern : String) : Reading NameSupply Automaton Summary :=
  Reader.read thompson limit ⟨0⟩ pattern.toList

def compile (limit : Option Nat) (pattern : String) : Except PatternError Automaton :=
  (readPattern limit pattern).outcome

def events (limit : Option Nat) (pattern : String) : List (Event Summary) :=
  (readPattern limit pattern).log.map Entry.event

end Thompson
