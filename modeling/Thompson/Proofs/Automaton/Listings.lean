import Mathlib.Data.List.Nodup
import Thompson.Automaton.Listing
import Thompson.Proofs.Automaton.Tables
import Thompson.Proofs.Text.Separable

/-!
Listings as canonical forms. A listing tells its lines apart, and a line its parts, although
symbols may look like the separators: a symbol is one character wherever it stands. And since
states, labels and targets are sorted, nothing of the order remains in which they came in. So
automata have the same listing exactly if they are the same.
-/
namespace Thompson

open Text

section Sorting

variable {α : Type} {le : α → α → Bool}

/-- What sorting needs so that its result depends on the members alone. -/
structure Orders (le : α → α → Bool) : Prop where
  trans : ∀ x y z, le x y = true → le y z = true → le x z = true
  total : ∀ x y, (le x y || le y x) = true
  antisymm : ∀ x y, le x y = true → le y x = true → x = y

theorem Orders.mergeSort_eq (orders : Orders le) {xs ys : List α} (nodupXs : xs.Nodup)
    (nodupYs : ys.Nodup) (same : ∀ x, x ∈ xs ↔ x ∈ ys) : xs.mergeSort le = ys.mergeSort le := by
  have members : xs.Perm ys := (List.perm_ext_iff_of_nodup nodupXs nodupYs).mpr same
  have sorted : (xs.mergeSort le).Perm (ys.mergeSort le) :=
    ((List.mergeSort_perm xs le).trans members).trans (List.mergeSort_perm ys le).symm
  exact sorted.eq_of_pairwise (fun x y _ _ => orders.antisymm x y)
    (List.pairwise_mergeSort orders.trans orders.total xs)
    (List.pairwise_mergeSort orders.trans orders.total ys)

theorem State.orders : Orders State.le where
  trans s t u := by
    simp only [State.le, decide_eq_true_eq]
    exact UInt32.le_trans
  total s t := by
    simp only [State.le, Bool.or_eq_true, decide_eq_true_eq]
    exact UInt32.le_total s.index t.index
  antisymm s t := by
    simp only [State.le, decide_eq_true_eq]
    intro below above
    obtain ⟨i⟩ := s
    obtain ⟨j⟩ := t
    exact congrArg State.mk (UInt32.le_antisymm below above)

theorem Label.orders : Orders Label.le where
  trans k l m := by
    cases k <;> cases l <;> cases m <;> simp only [Label.le, decide_eq_true_eq]
    case symbol.symbol.symbol => exact Char.le_trans
    all_goals simp
  total k l := by
    cases k <;> cases l <;> simp only [Label.le, Bool.or_eq_true, decide_eq_true_eq]
    case symbol.symbol c d => exact Char.le_total c d
    all_goals simp
  antisymm k l := by
    cases k <;> cases l <;> simp only [Label.le, decide_eq_true_eq]
    case symbol.symbol c d => exact fun below above => congrArg Label.symbol (Char.le_antisymm below above)
    all_goals simp

end Sorting

/-- What a line of a listing tells of a state. -/
structure Line where
  state : State
  start : Bool
  final : Bool
  cells : List (Label × List State)

namespace Line

def marksText : Bool × Bool → String
  | (true, true) => " (start, final)"
  | (true, false) => " (start)"
  | (false, true) => " (final)"
  | (false, false) => ""

def statesText (ss : List State) : List Char :=
  ", ".toList.intercalate (ss.map fun s => s.text.toList)

def cellText (cell : Label × List State) : List Char :=
  cell.1.text.toList ++ (" → ".toList ++ statesText cell.2)

def cellsText : List (Label × List State) → List Char
  | [] => ['∅']
  | cells => "; ".toList.intercalate (cells.map cellText)

def text (line : Line) : List Char :=
  line.state.text.toList ++
    (((marksText (line.start, line.final)).toList ++ ": ".toList) ++ (cellsText line.cells ++ ['\n']))

/-- No label is written as another one is, and none is without a target. -/
def PlainCell (cell : Label × List State) : Prop := cell.1 ≠ .symbol 'ε' ∧ cell.2 ≠ []

def Plain (line : Line) : Prop := ∀ cell ∈ line.cells, PlainCell cell

section Reading

/-- Behind the targets of a label comes the next label or the end of the line. -/
def CellEnds (rest : List Char) : Prop := Begins "; ".toList rest ∨ Begins ['\n'] rest

theorem separable_state : Separable (fun _ => True) (fun s : State => s.text.toList) NoDigit := by
  have number : Separable (fun _ => True) (fun s : State => Nat.toDigits 10 s.index.toNat) NoDigit := by
    refine separable_digits.comap (fun _ _ => trivial) ?_
    rintro ⟨i⟩ ⟨j⟩ _ _ same
    exact congrArg State.mk (UInt32.toNat_inj.mp same)
  simp only [State.toList_text]
  exact number.behind ['q']

def shownLabel : Label → Char
  | .epsilon => 'ε'
  | .symbol c => c

theorem toList_text_label (l : Label) : l.text.toList = [shownLabel l] := by
  cases l <;> simp [Label.text, shownLabel]

theorem separable_label :
    Separable (fun l : Label => l ≠ .symbol 'ε') (fun l => l.text.toList) AnyRest := by
  simp only [toList_text_label]
  refine Separable.char.comap (fun _ _ => trivial) ?_
  intro k l plainK plainL same
  cases k with
  | epsilon =>
    cases l with
    | epsilon => rfl
    | symbol d => exact absurd (congrArg Label.symbol same.symm) plainL
  | symbol c =>
    cases l with
    | epsilon => exact absurd (congrArg Label.symbol same) plainK
    | symbol d => exact congrArg Label.symbol same

theorem separable_states : Separable (fun ss : List State => ss ≠ []) statesText CellEnds := by
  have item : Separable (fun _ => True) (fun s : State => s.text.toList)
      fun r => Begins ", ".toList r ∨ CellEnds r := by
    refine separable_state.mono ?_
    rintro r (⟨tail, rfl⟩ | ⟨tail, rfl⟩ | ⟨tail, rfl⟩) <;> simp [NoDigit]
  have apart : ∀ r, CellEnds r → ¬Begins ", ".toList r := by
    rintro r (⟨tail, rfl⟩ | ⟨tail, rfl⟩) ⟨other, same⟩ <;> simp at same
  intro ss ts someS someT
  exact item.joined apart ⟨someS, fun _ _ => trivial⟩ ⟨someT, fun _ _ => trivial⟩

theorem separable_cell : Separable PlainCell cellText CellEnds :=
  separable_label.pair (separable_states.behind _) fun _ _ _ _ => trivial

theorem separable_cells :
    Separable (fun cells => ∀ cell ∈ cells, PlainCell cell) cellsText (Begins ['\n']) := by
  have item : Separable PlainCell cellText fun r => Begins "; ".toList r ∨ Begins ['\n'] r :=
    separable_cell
  have apart : ∀ r, Begins ['\n'] r → ¬Begins "; ".toList r := by
    rintro r ⟨tail, rfl⟩ ⟨other, same⟩
    simp at same
  refine Separable.orNothing ?_ ?_
  · intro xs ys hx hy
    obtain ⟨x, xs, rfl⟩ := List.exists_cons_of_ne_nil hx.1
    obtain ⟨y, ys, rfl⟩ := List.exists_cons_of_ne_nil hy.1
    exact item.joined apart hx hy
  · -- a blank follows the label, and the end of the line the sign for no label
    rintro cell cells r s _ ⟨tail, rfl⟩ _ same
    rw [cellsText, cellsText, Separable.intercalate_map_cons, cellText, toList_text_label] at same
    · simp at same
    · exact List.cons_ne_nil _ _

theorem separable_marks :
    Separable (fun _ => True) (fun m => (marksText m).toList ++ ": ".toList) AnyRest := by
  rintro ⟨start, final⟩ ⟨start', final'⟩ _ _ r s _ _ same
  cases start <;> cases final <;> cases start' <;> cases final' <;> simp_all [marksText]

theorem noDigit_marks (m : Bool × Bool) (rest : List Char) :
    NoDigit (((marksText m).toList ++ ": ".toList) ++ rest) := by
  obtain ⟨start, final⟩ := m
  cases start <;> cases final <;> simp [marksText, NoDigit]

theorem separable_line : Separable Plain text AnyRest := by
  have edges := separable_marks.pair separable_cells.closedBy fun _ _ _ _ => trivial
  have parts := separable_state.pair edges fun p _ r _ => by
    rw [List.append_assoc]
    exact noDigit_marks p.1 _
  apply Separable.comap (f := fun line : Line => (line.state, (line.start, line.final), line.cells))
    parts
  · exact fun line plain => ⟨trivial, trivial, plain⟩
  · rintro ⟨⟩ ⟨⟩ _ _ same
    cases same
    rfl

theorem text_ne_nil (line : Line) : line.text ≠ [] := by
  simp [text]

end Reading

end Line

section Alphabet

def alphabetText (cs : List Char) : List Char :=
  "Σ = \x7b".toList ++ (", ".toList.intercalate (cs.map fun c => [c]) ++ "\x7d\n".toList)

theorem separable_alphabet : Separable (fun _ => True) alphabetText AnyRest := by
  have item : Separable (fun _ => True) (fun c : Char => [c])
      fun r => Begins ", ".toList r ∨ Begins "\x7d\n".toList r :=
    Separable.char.mono fun _ _ => trivial
  have apart : ∀ r, Begins "\x7d\n".toList r → ¬Begins ", ".toList r := by
    rintro r ⟨tail, rfl⟩ ⟨other, same⟩
    simp at same
  have members : Separable (fun cs : List Char => ∀ c ∈ cs, True)
      (fun cs => ", ".toList.intercalate (cs.map fun c => [c])) (Begins "\x7d\n".toList) := by
    refine Separable.orNothing (item.joined apart) ?_
    -- behind a first symbol, be it a brace, the line does not end
    rintro c cs r s _ ⟨tail, rfl⟩ ⟨other, rfl⟩ same
    rw [Separable.intercalate_map_cons] at same
    cases cs <;> simp [Separable.further] at same
  have line := members.closedBy.behind "Σ = \x7b".toList
  intro cs ds _ _ r s hr hs same
  exact line (fun _ _ => trivial) (fun _ _ => trivial) hr hs same

end Alphabet

namespace Automaton

variable {A B : Automaton} {s : State} {l : Label} {t : State}

def cells (A : Automaton) (s : State) : List (Label × List State) :=
  ((A.labelsFrom s).mergeSort Label.le).map fun l => (l, (A.successors s l).mergeSort State.le)

def line (A : Automaton) (s : State) : Line := ⟨s, A.start = s, A.isFinal s, A.cells s⟩

def lines (A : Automaton) : List Line := (A.states.toList.mergeSort State.le).map A.line

theorem mem_cells : (∃ ts, (l, ts) ∈ A.cells s ∧ t ∈ ts) ↔ ⟨s, l, t⟩ ∈ A.edges := by
  simp only [cells, List.mem_map, List.mem_mergeSort, Prod.mk.injEq]
  constructor
  · rintro ⟨_, ⟨_, _, rfl, rfl⟩, member⟩
    exact mem_successors.mp (List.mem_mergeSort.mp member)
  · intro edge
    exact ⟨_, ⟨l, mem_labelsFrom.mpr ⟨t, edge⟩, rfl, rfl⟩,
      List.mem_mergeSort.mpr (mem_successors.mpr edge)⟩

theorem mem_lines {line : Line} : line ∈ A.lines ↔ ∃ s ∈ A.states, A.line s = line := by
  simp [lines, OrderedSet.mem_toList]

theorem plain_line (plain : ∀ e ∈ A.edges, e.label ≠ .symbol 'ε') (s : State) :
    (A.line s).Plain := by
  intro cell member
  obtain ⟨l, label, rfl⟩ := List.mem_map.mp member
  obtain ⟨t, edge⟩ := mem_labelsFrom.mp (List.mem_mergeSort.mp label)
  have target : t ∈ (A.successors s l).mergeSort State.le :=
    List.mem_mergeSort.mpr (mem_successors.mpr edge)
  exact ⟨plain _ edge, List.ne_nil_of_mem target⟩

section Text

theorem marks_eq (A : Automaton) (s : State) :
    A.marks s = Line.marksText (decide (A.start = s), A.isFinal s) := by
  unfold marks
  cases decide (A.start = s) <;> cases A.isFinal s <;> rfl

theorem toList_cell (A : Automaton) (s : State) (l : Label) :
    (l.text ++ " → " ++ State.listText ((A.successors s l).mergeSort State.le)).toList =
      Line.cellText (l, (A.successors s l).mergeSort State.le) := by
  simp only [Line.cellText, Line.statesText, State.listText, String.toList_append,
    String.toList_intercalate, List.map_map, Function.comp_def, List.append_assoc]

theorem toList_edgesText (A : Automaton) (s : State) :
    (A.edgesText s).toList = Line.cellsText (A.cells s) := by
  cases sorted : (A.labelsFrom s).mergeSort Label.le with
  | nil =>
    have written : A.edgesText s = "∅" := by simp only [edgesText, sorted]
    have none : A.cells s = [] := by simp only [cells, sorted, List.map_nil]
    rw [written, none, Line.cellsText]
    simp
  | cons l labels =>
    simp only [edgesText, cells, sorted, Line.cellsText, List.map_cons,
      String.toList_intercalate, List.map_map, Function.comp_def, toList_cell]

theorem toList_stateLine (A : Automaton) (s : State) :
    (A.stateLine s).toList = (A.line s).text := by
  simp [stateLine, line, Line.text, toList_edgesText, marks_eq]

theorem toList_alphabetLine (A : Automaton) :
    A.alphabetLine.toList = alphabetText A.alphabet.toList := by
  simp [alphabetLine, alphabetText, Function.comp_def]

theorem toList_listing (A : Automaton) :
    (A.listing true).toList = alphabetText A.alphabet.toList ++ A.lines.flatMap Line.text := by
  simp [listing, toList_alphabetLine, lines, toList_stateLine, List.flatMap_map, String.toList_join]

end Text

section Canonical

/-- Nothing of a listing is lost. -/
theorem listing_eq_iff (plainA : ∀ e ∈ A.edges, e.label ≠ .symbol 'ε')
    (plainB : ∀ e ∈ B.edges, e.label ≠ .symbol 'ε') :
    A.listing true = B.listing true ↔ A.alphabet = B.alphabet ∧ A.lines = B.lines := by
  rw [← String.toList_inj, toList_listing, toList_listing]
  constructor
  · intro same
    obtain ⟨alphabet, rows⟩ := separable_alphabet trivial trivial trivial trivial same
    have plain {C : Automaton} (labels : ∀ e ∈ C.edges, e.label ≠ .symbol 'ε') :
        ∀ line ∈ C.lines, line.Plain := by
      intro line member
      obtain ⟨s, _, rfl⟩ := mem_lines.mp member
      exact plain_line labels s
    exact ⟨SymbolSet.ext alphabet,
      Line.separable_line.rows Line.text_ne_nil (plain plainA) (plain plainB) rows⟩
  · rintro ⟨alphabet, rows⟩
    rw [alphabet, rows]

theorem line_eq_of_lines (same : A.lines = B.lines) (known : s ∈ A.states) :
    s ∈ B.states ∧ A.line s = B.line s := by
  have member : A.line s ∈ A.lines := mem_lines.mpr ⟨s, known, rfl⟩
  rw [same] at member
  obtain ⟨u, inside, found⟩ := mem_lines.mp member
  obtain rfl : u = s := congrArg Line.state found
  exact ⟨inside, found.symm⟩

theorem start_eq_of_lines (sound : A.WellFormed) (same : A.lines = B.lines) :
    A.start = B.start := by
  have marks := congrArg Line.start (line_eq_of_lines same sound.start_mem).2
  have begins : B.start = A.start := by simpa [line] using marks
  exact begins.symm

theorem final_of_lines (sound : A.WellFormed) (same : A.lines = B.lines) (final : s ∈ A.finals) :
    s ∈ B.finals := by
  have marks := congrArg Line.final (line_eq_of_lines same (sound.finals_subset s final)).2
  simpa [line, isFinal, final] using marks

theorem edge_of_lines (sound : A.WellFormed) (same : A.lines = B.lines) {e : Edge}
    (edge : e ∈ A.edges) : e ∈ B.edges := by
  have cells := congrArg Line.cells (line_eq_of_lines same (sound.source_mem e edge)).2
  have listed := mem_cells.mpr edge
  rw [show A.cells e.source = B.cells e.source from cells] at listed
  exact mem_cells.mp listed

theorem same_of_lines (soundA : A.WellFormed) (soundB : B.WellFormed)
    (alphabet : A.alphabet = B.alphabet) (rows : A.lines = B.lines) : A.Same B := by
  refine ⟨start_eq_of_lines soundA rows, ?_, ?_, ?_, alphabet⟩
  · exact fun s => ⟨fun h => (line_eq_of_lines rows h).1, fun h => (line_eq_of_lines rows.symm h).1⟩
  · exact fun s => ⟨final_of_lines soundA rows, final_of_lines soundB rows.symm⟩
  · exact fun e => ⟨edge_of_lines soundA rows, edge_of_lines soundB rows.symm⟩

theorem cells_eq_of_edges (edges : A.edges.Same B.edges) (s : State) : A.cells s = B.cells s := by
  have labels : (A.labelsFrom s).mergeSort Label.le = (B.labelsFrom s).mergeSort Label.le := by
    apply Label.orders.mergeSort_eq (A.nodup_labelsFrom s) (B.nodup_labelsFrom s)
    intro l
    simp only [mem_labelsFrom, edges _]
  have targets (l : Label) :
      (A.successors s l).mergeSort State.le = (B.successors s l).mergeSort State.le := by
    apply State.orders.mergeSort_eq (A.nodup_successors s l) (B.nodup_successors s l)
    intro t
    rw [mem_successors, mem_successors]
    exact edges _
  simp only [cells, labels, targets]

theorem lines_eq_of_same (same : A.Same B) : A.lines = B.lines := by
  obtain ⟨start, states, finals, edges, -⟩ := same
  have order : A.states.toList.mergeSort State.le = B.states.toList.mergeSort State.le :=
    State.orders.mergeSort_eq A.states.nodup B.states.nodup states
  have each (s : State) : A.line s = B.line s := by
    have final : A.isFinal s = B.isFinal s := decide_eq_decide.mpr (finals s)
    rw [line, line, start, final, cells_eq_of_edges edges s]
  rw [lines, lines, order]
  exact List.map_congr_left fun s _ => each s

end Canonical

end Automaton

/-- Operations in whatever order lead to the same listing exactly if they lead to the same
    automaton. And for its edges to be the same is for its table to be the same, row by row
    and cell by cell. -/
theorem History.listing_eq_iff_same (h g : History)
    (plain : ∀ e ∈ h.automaton.edges, e.label ≠ .symbol 'ε')
    (plain' : ∀ e ∈ g.automaton.edges, e.label ≠ .symbol 'ε') :
    (h.automaton.listing true = g.automaton.listing true ↔ h.automaton.Same g.automaton) ∧
    (h.automaton.edges.Same g.automaton.edges ↔ h.table.Same g.table) := by
  constructor
  · rw [Automaton.listing_eq_iff plain plain']
    constructor
    · rintro ⟨alphabet, rows⟩
      exact Automaton.same_of_lines h.wellFormed g.wellFormed alphabet rows
    · intro same
      exact ⟨same.2.2.2.2, Automaton.lines_eq_of_same same⟩
  · rw [h.table_eq, g.table_eq]
    exact Automaton.same_table_iff.symm

theorem History.listing_eq_iff_same_separators :
    ∃ h g : History, (∀ e ∈ h.automaton.edges, e.label ≠ .symbol 'ε') ∧
      (∀ e ∈ g.automaton.edges, e.label ≠ .symbol 'ε') ∧ h.automaton ≠ g.automaton ∧
      h.automaton.listing true = g.automaton.listing true := by
  let through : Edge := ⟨⟨0⟩, .epsilon, ⟨2⟩⟩
  let semicolon : Edge := ⟨⟨0⟩, .symbol ';', ⟨1⟩⟩
  let h : History := (((single ⟨0⟩).addEdge semicolon).addEdge through).addSymbols ['\x7d', ',']
  let g : History :=
    ((((single ⟨2⟩).addSymbols [',', '\x7d']).addEdge through).addEdge semicolon).setStart ⟨0⟩
  have plain : ∀ e ∈ h.automaton.edges, e.label ≠ .symbol 'ε' := by
    have listed : ∀ e ∈ h.automaton.edges.toList, e.label ≠ .symbol 'ε' := by decide
    exact listed
  have plain' : ∀ e ∈ g.automaton.edges, e.label ≠ .symbol 'ε' := by
    have listed : ∀ e ∈ g.automaton.edges.toList, e.label ≠ .symbol 'ε' := by decide
    exact listed
  have same : h.automaton.Same g.automaton := by decide
  exact ⟨h, g, plain, plain', by decide, (listing_eq_iff_same h g plain plain').1.mpr same⟩

-- the symbol that looks like epsilon is taken for it
example : ((History.single ⟨0⟩).addEdge ⟨⟨0⟩, .epsilon, ⟨0⟩⟩).automaton.listing true =
    ((History.single ⟨0⟩).addEdge ⟨⟨0⟩, .symbol 'ε', ⟨0⟩⟩).automaton.listing true := by cbv

end Thompson
