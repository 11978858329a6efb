import Thompson.OrderedSet
import Thompson.Symbol

/-!
Nondeterministic automata with named states, edges that read a symbol or nothing,
one start state and a set of final states. States, final states and edges keep
the order in which they came in. An automaton grows by small operations and by
taking in another one; states are never removed.
-/
namespace Thompson

structure State where
  index : UInt32
  deriving DecidableEq, Hashable

def State.text (s : State) : String := "q" ++ toString s.index.toNat

theorem State.toList_text (s : State) : s.text.toList = 'q' :: Nat.toDigits 10 s.index.toNat := by
  simp [State.text, Nat.toList_repr]

/-- What an edge reads: nothing, or exactly one symbol. -/
inductive Label where
  | epsilon
  | symbol (c : Char)
  deriving DecidableEq

instance : Hashable Label where
  hash
    | .epsilon => 0
    | .symbol c => mixHash 1 c.val.toUInt64

/-- Epsilon is written `ε`, as the symbol of that shape is. -/
def Label.text : Label → String
  | .epsilon => "ε"
  | .symbol c => c.toString

structure Edge where
  source : State
  label : Label
  target : State
  deriving DecidableEq, Hashable

def Edge.ends (e : Edge) : List State := [e.source, e.target]

structure Automaton where
  start : State
  states : OrderedSet State
  finals : OrderedSet State
  edges : OrderedSet Edge
  alphabet : SymbolSet
  deriving DecidableEq

namespace Automaton

def single (s : State) : Automaton := ⟨s, .singleton s, .empty, .empty, .empty⟩

def addState (A : Automaton) (s : State) : Automaton := { A with states := A.states.insert s }

def setStart (A : Automaton) (s : State) : Automaton := { A.addState s with start := s }

def addFinal (A : Automaton) (s : State) : Automaton :=
  { A.addState s with finals := A.finals.insert s }

def removeFinal (A : Automaton) (s : State) : Automaton := { A with finals := A.finals.erase s }

/-- Edges in turn. The source of each joins the states before its target does. -/
def addEdges (A : Automaton) (es : List Edge) : Automaton :=
  { A with
    states := A.states.union (.ofList (es.flatMap Edge.ends))
    edges := A.edges.union (.ofList es) }

def addEdge (A : Automaton) (e : Edge) : Automaton := A.addEdges [e]

/-- The mark for the empty text never becomes a symbol. -/
def addSymbols (A : Automaton) (cs : List Char) : Automaton :=
  { A with alphabet := A.alphabet.insertAll (cs.filter (· ≠ emptyMark)) }

/-- Takes in the states, final states and edges of `B`. How the start of `B` is
    reached is left to the caller, and so is its alphabet. -/
def absorb (A B : Automaton) : Automaton :=
  { A with
    states := A.states.union B.states
    finals := A.finals.union B.finals
    edges := A.edges.union B.edges }

def contains (A : Automaton) (s : State) : Bool := s ∈ A.states

def isFinal (A : Automaton) (s : State) : Bool := s ∈ A.finals

/-- Equality up to the orders of states, final states and edges. -/
def Same (A B : Automaton) : Prop :=
  A.start = B.start ∧ A.states.Same B.states ∧ A.finals.Same B.finals ∧
    A.edges.Same B.edges ∧ A.alphabet = B.alphabet

instance (A B : Automaton) : Decidable (A.Same B) := by unfold Same; infer_instance

section Views

variable (A B : Automaton) (s t : State) (e d : Edge) (es : List Edge) (cs : List Char)

@[simp] theorem start_single : (single s).start = s := rfl
@[simp] theorem mem_states_single : t ∈ (single s).states ↔ t = s := OrderedSet.mem_singleton
@[simp] theorem not_mem_finals_single : t ∉ (single s).finals := OrderedSet.not_mem_empty t
@[simp] theorem not_mem_edges_single : e ∉ (single s).edges := OrderedSet.not_mem_empty e

@[simp] theorem start_addState : (A.addState s).start = A.start := rfl
@[simp] theorem mem_states_addState : t ∈ (A.addState s).states ↔ t = s ∨ t ∈ A.states :=
  OrderedSet.mem_insert
@[simp] theorem finals_addState : (A.addState s).finals = A.finals := rfl
@[simp] theorem edges_addState : (A.addState s).edges = A.edges := rfl
@[simp] theorem alphabet_addState : (A.addState s).alphabet = A.alphabet := rfl

theorem addState_of_mem {A : Automaton} {s : State} (h : s ∈ A.states) : A.addState s = A := by
  simp [addState, OrderedSet.insert_of_mem h]

@[simp] theorem start_setStart : (A.setStart s).start = s := rfl
@[simp] theorem mem_states_setStart : t ∈ (A.setStart s).states ↔ t = s ∨ t ∈ A.states :=
  OrderedSet.mem_insert
@[simp] theorem finals_setStart : (A.setStart s).finals = A.finals := rfl
@[simp] theorem edges_setStart : (A.setStart s).edges = A.edges := rfl
@[simp] theorem alphabet_setStart : (A.setStart s).alphabet = A.alphabet := rfl

@[simp] theorem start_addFinal : (A.addFinal s).start = A.start := rfl
@[simp] theorem mem_states_addFinal : t ∈ (A.addFinal s).states ↔ t = s ∨ t ∈ A.states :=
  OrderedSet.mem_insert
@[simp] theorem mem_finals_addFinal : t ∈ (A.addFinal s).finals ↔ t = s ∨ t ∈ A.finals :=
  OrderedSet.mem_insert
@[simp] theorem edges_addFinal : (A.addFinal s).edges = A.edges := rfl
@[simp] theorem alphabet_addFinal : (A.addFinal s).alphabet = A.alphabet := rfl

@[simp] theorem start_removeFinal : (A.removeFinal s).start = A.start := rfl
@[simp] theorem states_removeFinal : (A.removeFinal s).states = A.states := rfl
@[simp] theorem mem_finals_removeFinal : t ∈ (A.removeFinal s).finals ↔ t ∈ A.finals ∧ t ≠ s :=
  OrderedSet.mem_erase
@[simp] theorem edges_removeFinal : (A.removeFinal s).edges = A.edges := rfl
@[simp] theorem alphabet_removeFinal : (A.removeFinal s).alphabet = A.alphabet := rfl

@[simp] theorem start_addEdges : (A.addEdges es).start = A.start := rfl
@[simp] theorem mem_states_addEdges :
    t ∈ (A.addEdges es).states ↔ t ∈ A.states ∨ ∃ e ∈ es, t = e.source ∨ t = e.target := by
  simp [addEdges, Edge.ends]
@[simp] theorem finals_addEdges : (A.addEdges es).finals = A.finals := rfl
@[simp] theorem mem_edges_addEdges : d ∈ (A.addEdges es).edges ↔ d ∈ A.edges ∨ d ∈ es := by
  simp [addEdges]
@[simp] theorem alphabet_addEdges : (A.addEdges es).alphabet = A.alphabet := rfl

@[simp] theorem start_addEdge : (A.addEdge e).start = A.start := rfl
@[simp] theorem mem_states_addEdge :
    t ∈ (A.addEdge e).states ↔ t ∈ A.states ∨ t = e.source ∨ t = e.target := by
  simp [addEdge]
@[simp] theorem finals_addEdge : (A.addEdge e).finals = A.finals := rfl
@[simp] theorem mem_edges_addEdge : d ∈ (A.addEdge e).edges ↔ d ∈ A.edges ∨ d = e := by
  simp [addEdge]
@[simp] theorem alphabet_addEdge : (A.addEdge e).alphabet = A.alphabet := rfl

@[simp] theorem start_addSymbols : (A.addSymbols cs).start = A.start := rfl
@[simp] theorem states_addSymbols : (A.addSymbols cs).states = A.states := rfl
@[simp] theorem finals_addSymbols : (A.addSymbols cs).finals = A.finals := rfl
@[simp] theorem edges_addSymbols : (A.addSymbols cs).edges = A.edges := rfl
@[simp] theorem mem_alphabet_addSymbols {c : Char} :
    c ∈ (A.addSymbols cs).alphabet ↔ (c ∈ cs ∧ c ≠ emptyMark) ∨ c ∈ A.alphabet := by
  simp [addSymbols]

@[simp] theorem start_absorb : (A.absorb B).start = A.start := rfl
@[simp] theorem mem_states_absorb : t ∈ (A.absorb B).states ↔ t ∈ A.states ∨ t ∈ B.states :=
  OrderedSet.mem_union
@[simp] theorem mem_finals_absorb : t ∈ (A.absorb B).finals ↔ t ∈ A.finals ∨ t ∈ B.finals :=
  OrderedSet.mem_union
@[simp] theorem mem_edges_absorb : e ∈ (A.absorb B).edges ↔ e ∈ A.edges ∨ e ∈ B.edges :=
  OrderedSet.mem_union
@[simp] theorem alphabet_absorb : (A.absorb B).alphabet = A.alphabet := rfl

end Views

theorem addEdges_nil (A : Automaton) : A.addEdges [] = A := by
  simp only [addEdges, List.flatMap_nil, OrderedSet.ofList_nil, OrderedSet.union_empty]

theorem addEdges_cons (A : Automaton) (e : Edge) (es : List Edge) :
    A.addEdges (e :: es) = (A.addEdge e).addEdges es := by
  have states := A.states.union_ofList_append e.ends (es.flatMap Edge.ends)
  have edges := A.edges.union_ofList_append [e] es
  simp only [List.singleton_append] at edges
  simp only [addEdge, addEdges, List.flatMap_cons, List.flatMap_nil, List.append_nil, states, edges]

end Automaton

end Thompson

/-!
Views of the edges. An edge is listed under its source, there under its label,
and there by its target; sources, labels and targets each come in the order in
which they were first used.
-/
namespace Thompson.Automaton

def successors (A : Automaton) (s : State) (l : Label) : List State :=
  A.edges.toList.filterMap fun e => if e.source = s ∧ e.label = l then some e.target else none

def sources (A : Automaton) : List State := firsts (A.edges.toList.map Edge.source)

def labelsFrom (A : Automaton) (s : State) : List Label :=
  firsts ((A.edges.toList.filter (·.source = s)).map Edge.label)

def outgoing (A : Automaton) (s : State) : List (Label × List State) :=
  (A.labelsFrom s).map fun l => (l, A.successors s l)

/-- Every edge, by source, label and target. -/
def transitions (A : Automaton) : List Edge :=
  A.sources.flatMap fun s =>
    (A.outgoing s).flatMap fun (l, targets) => targets.map fun t => ⟨s, l, t⟩

def transitionCount (A : Automaton) : Nat := A.edges.size

variable {A : Automaton} {s t : State} {l : Label}

@[simp] theorem mem_successors : t ∈ A.successors s l ↔ ⟨s, l, t⟩ ∈ A.edges := by
  constructor
  · intro h
    obtain ⟨e, member, found⟩ := List.mem_filterMap.mp h
    split at found
    · rename_i fits
      obtain ⟨rfl, rfl⟩ := fits
      obtain rfl := Option.some.inj found
      exact member
    · contradiction
  · intro h
    exact List.mem_filterMap.mpr ⟨_, h, by simp⟩

theorem nodup_labelsFrom (A : Automaton) (s : State) : (A.labelsFrom s).Nodup := nodup_firsts _

theorem nodup_successors (A : Automaton) (s : State) (l : Label) : (A.successors s l).Nodup := by
  unfold successors
  refine List.Pairwise.filterMap _ ?_ A.edges.nodup
  intro d e different t ht u hu same
  split at ht <;> split at hu <;> simp_all
  cases d; cases e; simp_all

@[simp] theorem mem_sources : s ∈ A.sources ↔ ∃ e ∈ A.edges, e.source = s := by
  simp [sources, OrderedSet.mem_toList]

@[simp] theorem mem_labelsFrom : l ∈ A.labelsFrom s ↔ ∃ t, ⟨s, l, t⟩ ∈ A.edges := by
  constructor
  · intro h
    obtain ⟨e, member, rfl⟩ := List.mem_map.mp (mem_firsts.mp h)
    obtain ⟨inside, leaves⟩ := List.mem_filter.mp member
    obtain rfl := of_decide_eq_true leaves
    exact ⟨e.target, inside⟩
  · intro ⟨t, h⟩
    exact mem_firsts.mpr (List.mem_map.mpr ⟨_, List.mem_filter.mpr ⟨h, by simp⟩, rfl⟩)

theorem mem_transitions {e : Edge} : e ∈ A.transitions ↔ e ∈ A.edges := by
  obtain ⟨s, l, t⟩ := e
  simp only [transitions, outgoing, List.mem_flatMap, List.mem_map, mem_sources]
  constructor
  · rintro ⟨_, _, _, ⟨_, _, rfl⟩, _, member, same⟩
    cases same
    exact mem_successors.mp member
  · intro h
    exact ⟨s, ⟨_, h, rfl⟩, (l, A.successors s l), ⟨l, mem_labelsFrom.mpr ⟨t, h⟩, rfl⟩, t,
      mem_successors.mpr h, rfl⟩

end Thompson.Automaton
