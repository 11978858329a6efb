import Thompson.Automaton.Basic
import Thompson.Fragment
import Thompson.OrderedMap

/-!
How an automaton came about. A history is a tree of operations; its leaves are
automata made from nothing, and operations on two automata join two histories. It
is carried out to an automaton, and tells which edges were put in on the way.
-/
namespace Thompson

inductive History where
  | single (s : State)
  | setStart (h : History) (s : State)
  | addState (h : History) (s : State)
  | addFinal (h : History) (s : State)
  | removeFinal (h : History) (s : State)
  | addEdge (h : History) (e : Edge)
  | addSymbols (h : History) (cs : List Char)
  | absorb (h other : History)
  | empty (names : NameSupply)
  | primitive (c : Char) (names : NameSupply)
  | concatenate (first second : History)
  | union (first second : History) (names : NameSupply)
  | repetition (h : History) (names : NameSupply)

namespace History

def automaton : History → Automaton
  | single s => .single s
  | setStart h s => h.automaton.setStart s
  | addState h s => h.automaton.addState s
  | addFinal h s => h.automaton.addFinal s
  | removeFinal h s => h.automaton.removeFinal s
  | addEdge h e => h.automaton.addEdge e
  | addSymbols h cs => h.automaton.addSymbols cs
  | absorb h other => h.automaton.absorb other.automaton
  | empty names => (Fragment.empty names).1
  | primitive c names => (Fragment.primitive c names).1
  | concatenate first second => Fragment.concatenate first.automaton second.automaton
  | union first second names => (Fragment.union first.automaton second.automaton names).1
  | repetition h names => (Fragment.repetition h.automaton names).1

/-- The edges put in, oldest first, those of the construction among them; an automaton taken
    in brings the edges of its own history. -/
def added : History → List Edge
  | single _ => []
  | setStart h _ | addState h _ | addFinal h _ | removeFinal h _ | addSymbols h _ => h.added
  | addEdge h e => h.added ++ [e]
  | absorb h other => h.added ++ other.added
  | empty names => [⟨⟨names.issued⟩, .epsilon, ⟨names.issued + 1⟩⟩]
  | primitive c names =>
    if c = emptyMark then [] else [⟨⟨names.issued⟩, .symbol c, ⟨names.issued + 1⟩⟩]
  | concatenate first second =>
    first.added ++ Fragment.finalEdges first.automaton second.automaton.start ++ second.added
  | union first second names =>
    first.added ++ second.added ++ [⟨⟨names.issued⟩, .epsilon, first.automaton.start⟩,
      ⟨⟨names.issued⟩, .epsilon, second.automaton.start⟩]
  | repetition h names =>
    h.added ++ Fragment.finalEdges h.automaton h.automaton.start ++
      [⟨⟨names.issued⟩, .epsilon, h.automaton.start⟩]

end History

def Automaton.Built (A : Automaton) : Prop := ∃ h : History, h.automaton = A

/-!
Edges as a table: a row for each source, in it a cell for each label, and in the cell the
targets, all in the order in which they were first used. An edge opens the row and the cell that
it needs, and a table is merged into another one row by row and cell by cell. A history leads
to such a table as it leads to an automaton.
-/

def Row := OrderedMap Label (OrderedSet State)

/-- The rows by source. -/
def Table := OrderedMap State Row

namespace Row

def empty : Row := OrderedMap.empty

def labels (row : Row) : List Label := row.keys

def targets (row : Row) (l : Label) : OrderedSet State := (row.get? l).getD .empty

def add (row : Row) (l : Label) (t : State) : Row := row.update l .empty (·.insert t)

def merge (row other : Row) : Row := OrderedMap.merge .union .empty row other

/-- The same labels, and under each of them the same targets. -/
def Same (row other : Row) : Prop :=
  (∀ l, l ∈ row.labels ↔ l ∈ other.labels) ∧ ∀ l, (row.targets l).Same (other.targets l)

end Row

namespace Table

def empty : Table := OrderedMap.empty

def sources (T : Table) : List State := T.keys

def row (T : Table) (s : State) : Row := (T.get? s).getD .empty

def add (T : Table) (e : Edge) : Table := T.update e.source .empty (·.add e.label e.target)

def addAll (T : Table) (es : List Edge) : Table := es.foldl add T

def merge (T other : Table) : Table := OrderedMap.merge Row.merge .empty T other

section Views

variable (T : Table) (s : State)

def successors (l : Label) : List State :=
  ((T.get? s).bind fun row => row.get? l).elim [] OrderedSet.toList

def outgoing : List (Label × List State) :=
  (T.get? s).elim [] fun row => row.entries.map fun (l, targets) => (l, targets.toList)

def transitions : List Edge :=
  T.entries.flatMap fun (s, row) =>
    row.entries.flatMap fun (l, targets) => targets.toList.map fun t => ⟨s, l, t⟩

def transitionCount : Nat :=
  (T.entries.flatMap fun (_, row) => row.entries.map fun (_, targets) => targets.size).foldl
    (· + ·) 0

end Views

/-- The same sources, and for each of them the same row. -/
def Same (T U : Table) : Prop :=
  (∀ s, s ∈ T.sources ↔ s ∈ U.sources) ∧ ∀ s, (T.row s).Same (U.row s)

/-- No source has a row without a cell, and no label a cell without a target. -/
def Filled (T : Table) : Prop :=
  ∀ r ∈ T.entries, r.2.entries ≠ [] ∧ ∀ c ∈ r.2.entries, c.2.toList ≠ []

end Table

/-- The table that the operations lead to, each changing it as it changes the edges. -/
def History.table : History → Table
  | single _ => .empty
  | setStart h _ | addState h _ | addFinal h _ | removeFinal h _ | addSymbols h _ => h.table
  | addEdge h e => h.table.add e
  | absorb h other => h.table.merge other.table
  | empty names => Table.empty.add ⟨⟨names.issued⟩, .epsilon, ⟨names.issued + 1⟩⟩
  | primitive c names =>
    if c = emptyMark then .empty
    else Table.empty.add ⟨⟨names.issued⟩, .symbol c, ⟨names.issued + 1⟩⟩
  | concatenate first second =>
    (first.table.addAll (Fragment.finalEdges first.automaton second.automaton.start)).merge
      second.table
  | union first second names =>
    ((first.table.merge second.table).add
      ⟨⟨names.issued⟩, .epsilon, first.automaton.start⟩).add
      ⟨⟨names.issued⟩, .epsilon, second.automaton.start⟩
  | repetition h names =>
    (h.table.addAll (Fragment.finalEdges h.automaton h.automaton.start)).add
      ⟨⟨names.issued⟩, .epsilon, h.automaton.start⟩

end Thompson
