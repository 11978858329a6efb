import Thompson.Automaton.Listing
import Thompson.Pattern.Compile
import Thompson.Proofs.Automaton.Listings
import Thompson.Proofs.Fragment.Pools
import Thompson.Proofs.Pattern.Limit
import Thompson.Proofs.Pattern.NameCount

/-!
The shape of an automaton that a pattern has. Every name that is handed out stays a state, so the
characters of the pattern tell how many states there are. A letter takes two names, one after the
other, and the edge between them is the only kind of edge that reads a symbol; since operands are
built in the order in which they stand, the numbers keep the order of the letters.
-/
namespace Thompson

def Label.symbol? : Label → Option Char
  | .epsilon => none
  | .symbol c => some c

namespace Automaton

/-- The edges that read a symbol, in the order of their sources. -/
def symbolEdges (A : Automaton) : List Edge :=
  (A.edges.toList.filter (·.label ≠ .epsilon)).mergeSort fun d e => State.le d.source e.source

/-- The symbols that are read, in the order of the states where they are. -/
def spelling (A : Automaton) : List Char := A.symbolEdges.filterMap (·.label.symbol?)

end Automaton

/-- Edges with ascending sources in a range, each to the next number, that spell a text. -/
structure Letters (low high : Nat) (es : List Edge) (text : List Char) : Prop where
  ascending : es.Pairwise fun d e => d.source.index.toNat < e.source.index.toNat
  next : ∀ e ∈ es, e.target.index.toNat = e.source.index.toNat + 1
  lower : ∀ e ∈ es, low ≤ e.source.index.toNat
  upper : ∀ e ∈ es, e.source.index.toNat < high
  labels : es.map Edge.label = text.map Label.symbol

namespace Letters

variable {low middle high : Nat} {es ds : List Edge} {u v : List Char} {e d : Edge}

theorem nil (low high : Nat) : Letters low high [] [] := by
  constructor <;> simp

theorem widen (h : Letters low middle es u) (more : middle ≤ high) : Letters low high es u :=
  ⟨h.ascending, h.next, h.lower, fun e he => Nat.lt_of_lt_of_le (h.upper e he) more, h.labels⟩

theorem append (first : Letters low middle es u) (second : Letters middle high ds v)
    (less : low ≤ middle) (more : middle ≤ high) : Letters low high (es ++ ds) (u ++ v) where
  ascending := by
    refine List.pairwise_append.mpr ⟨first.ascending, second.ascending, ?_⟩
    intro e he d hd
    exact Nat.lt_of_lt_of_le (first.upper e he) (second.lower d hd)
  next := by
    intro e he
    rcases List.mem_append.mp he with left | right
    · exact first.next e left
    · exact second.next e right
  lower := by
    intro e he
    rcases List.mem_append.mp he with left | right
    · exact first.lower e left
    · exact Nat.le_trans less (second.lower e right)
  upper := by
    intro e he
    rcases List.mem_append.mp he with left | right
    · exact Nat.lt_of_lt_of_le (first.upper e left) more
    · exact second.upper e right
  labels := by rw [List.map_append, List.map_append, first.labels, second.labels]

theorem exists_symbol (h : Letters low high es u) (he : e ∈ es) :
    ∃ c ∈ u, e.label = .symbol c := by
  have label : e.label ∈ es.map Edge.label := List.mem_map_of_mem he
  rw [h.labels] at label
  obtain ⟨c, member, same⟩ := List.mem_map.mp label
  exact ⟨c, member, same.symm⟩

theorem sources_nodup (h : Letters low high es u) : (es.map Edge.source).Nodup := by
  refine List.pairwise_map.mpr (h.ascending.imp ?_)
  intro d e less same
  rw [same] at less
  exact Nat.lt_irrefl _ less

theorem eq_of_source_eq (h : Letters low high es u) (hd : d ∈ es) (he : e ∈ es)
    (same : d.source = e.source) : d = e :=
  List.inj_on_of_nodup_map h.sources_nodup hd he same

end Letters

/-- The states are those with a number in the range, and the symbol edges spell the text. -/
structure Automaton.Carries (A : Automaton) (low high : Nat) (text : List Char) : Prop where
  wellFormed : A.WellFormed
  states : ∀ s, s ∈ A.states ↔ low ≤ s.index.toNat ∧ s.index.toNat < high
  letters : ∃ es, Letters low high es text ∧ ∀ e, e ∈ es ↔ e ∈ A.edges ∧ e.label ≠ .epsilon

namespace Automaton.Carries

variable {A : Automaton} {low high : Nat} {u : List Char}

theorem lt (h : A.Carries low high u) : low < high := by
  have start := (h.states A.start).mp h.wellFormed.start_mem
  omega

theorem addSymbols (h : A.Carries low high u) (cs : List Char) :
    (A.addSymbols cs).Carries low high u :=
  ⟨h.wellFormed.addSymbols cs, h.states, h.letters⟩

/-- Sorting by the source finds the one order in which the symbol edges ascend. -/
theorem spelling_eq (h : A.Carries low high u) : A.spelling = u := by
  obtain ⟨es, letters, member⟩ := h.letters
  have edges : (A.edges.toList.filter (·.label ≠ .epsilon)).Perm es := by
    refine (List.perm_ext_iff_of_nodup (A.edges.nodup.filter _) letters.sources_nodup.of_map).mpr ?_
    intro e
    rw [member e]
    simp [OrderedSet.mem_toList]
  have sorted : A.symbolEdges = es := by
    have perm := (List.mergeSort_perm _ fun d e : Edge => State.le d.source e.source).trans edges
    refine perm.eq_of_pairwise ?_ (List.pairwise_mergeSort ?_ ?_ _) ?_
    · intro d e hd he below above
      -- The order looks at sources alone, but no two symbol edges have the same one.
      refine letters.eq_of_source_eq (perm.mem_iff.mp hd) he ?_
      exact State.orders.antisymm _ _ below above
    · exact fun c d e => State.orders.trans _ _ _
    · exact fun d e => State.orders.total _ _
    · refine letters.ascending.imp ?_
      intro d e less
      exact decide_eq_true (UInt32.le_iff_toNat_le.mpr (Nat.le_of_lt less))
  have read : es.filterMap (·.label.symbol?) = (es.map Edge.label).filterMap Label.symbol? := by
    rw [List.filterMap_map]
    rfl
  rw [spelling, sorted, read, letters.labels, List.filterMap_map]
  exact List.filterMap_some

end Automaton.Carries

namespace Fragment

variable {A B : Automaton} {names : NameSupply} {low middle : Nat} {u v : List Char} {c : Char}

theorem carries_empty (room : names.HasRoom 2) :
    (empty names).1.Carries names.issued.toNat (empty names).2.issued.toNat [] where
  wellFormed := wellFormed_empty names
  states s := by
    rw [mem_states_empty]
    exact (NameSupply.between_fresh_fresh room).symm
  letters := by
    refine ⟨[], .nil _ _, ?_⟩
    intro e
    rw [mem_edges_empty]
    simp only [List.not_mem_nil, false_iff]
    rintro ⟨rfl, symbol⟩
    exact symbol rfl

theorem carries_primitive_mark (room : names.HasRoom 1) :
    (primitive emptyMark names).1.Carries names.issued.toNat
      (primitive emptyMark names).2.issued.toNat [] where
  wellFormed := wellFormed_primitive emptyMark names
  states s := by
    rw [mem_states_primitive_mark]
    exact (NameSupply.between_fresh room).symm
  letters := by
    refine ⟨[], .nil _ _, ?_⟩
    intro e
    simp [primitive_mark]

theorem carries_primitive (letter : c ≠ emptyMark) (room : names.HasRoom 2) :
    (primitive c names).1.Carries names.issued.toNat (primitive c names).2.issued.toNat [c] := by
  have first := NameSupply.toNat_issued_fresh (room.mono (Nat.le_succ 1))
  have count := NameSupply.toNat_issued_fresh room.fresh
  have last : (primitive c names).2 = names.fresh.2.fresh.2 := by rw [primitive_letter letter]
  refine ⟨wellFormed_primitive c names, ?_, [⟨⟨names.issued⟩, .symbol c, ⟨names.issued + 1⟩⟩], ?_, ?_⟩
  · intro s
    rw [mem_states_primitive letter, last]
    exact (NameSupply.between_fresh_fresh room).symm
  · rw [last]
    constructor
    · exact List.pairwise_singleton _ _
    · simpa using first
    · simp
    · simp only [List.mem_singleton, forall_eq]
      omega
    · rfl
  · intro e
    rw [mem_edges_primitive letter]
    simp only [List.mem_singleton]
    constructor
    · rintro rfl
      exact ⟨rfl, Label.noConfusion⟩
    · exact And.left

theorem carries_concatenate {high : Nat} (first : A.Carries low middle u)
    (second : B.Carries middle high v) : (concatenate A B).Carries low high (u ++ v) where
  wellFormed := wellFormed_concatenate first.wellFormed second.wellFormed
  states s := by
    have left := first.lt
    have right := second.lt
    rw [mem_states_concatenate first.wellFormed second.wellFormed, first.states, second.states]
    omega
  letters := by
    obtain ⟨es, before, fromFirst⟩ := first.letters
    obtain ⟨ds, behind, fromSecond⟩ := second.letters
    refine ⟨es ++ ds, before.append behind (Nat.le_of_lt first.lt) (Nat.le_of_lt second.lt), ?_⟩
    intro e
    rw [List.mem_append, fromFirst, fromSecond, mem_edges_concatenate]
    constructor
    · rintro (⟨own, symbol⟩ | ⟨own, symbol⟩)
      · exact ⟨Or.inl (Or.inl own), symbol⟩
      · exact ⟨Or.inr own, symbol⟩
    · rintro ⟨(own | ⟨f, _, rfl⟩) | own, symbol⟩
      · exact Or.inl ⟨own, symbol⟩
      · exact absurd rfl symbol
      · exact Or.inr ⟨own, symbol⟩

theorem carries_union (first : A.Carries low middle u)
    (second : B.Carries middle names.issued.toNat v) (room : names.HasRoom 1) :
    (union A B names).1.Carries low (union A B names).2.issued.toNat (u ++ v) where
  wellFormed := wellFormed_union first.wellFormed second.wellFormed names
  states s := by
    have left := first.lt
    have right := second.lt
    have last := toNat_issued_union (A := A) (B := B) room
    -- The start of a union gets its name last, behind those of both operands.
    have new := NameSupply.between_fresh (s := s) room
    rw [mem_states_union first.wellFormed second.wellFormed, first.states, second.states, last,
      ← new, NameSupply.Between, NameSupply.toNat_issued_fresh room]
    omega
  letters := by
    obtain ⟨es, before, fromFirst⟩ := first.letters
    obtain ⟨ds, behind, fromSecond⟩ := second.letters
    have left := first.lt
    have right := second.lt
    have last := toNat_issued_union (A := A) (B := B) room
    refine ⟨es ++ ds, (before.append behind (by omega) (by omega)).widen (by omega), ?_⟩
    intro e
    rw [List.mem_append, fromFirst, fromSecond, mem_edges_union]
    constructor
    · rintro (⟨own, symbol⟩ | ⟨own, symbol⟩)
      · exact ⟨Or.inl (Or.inl (Or.inl own)), symbol⟩
      · exact ⟨Or.inl (Or.inl (Or.inr own)), symbol⟩
    · rintro ⟨((own | own) | rfl) | rfl, symbol⟩
      · exact Or.inl ⟨own, symbol⟩
      · exact Or.inr ⟨own, symbol⟩
      · exact absurd rfl symbol
      · exact absurd rfl symbol

theorem carries_repetition (operand : A.Carries low names.issued.toNat u)
    (room : names.HasRoom 1) :
    (repetition A names).1.Carries low (repetition A names).2.issued.toNat u where
  wellFormed := wellFormed_repetition operand.wellFormed names
  states s := by
    have below := operand.lt
    have last := toNat_issued_repetition (A := A) room
    have new := NameSupply.between_fresh (s := s) room
    rw [mem_states_repetition operand.wellFormed, operand.states, last, ← new,
      NameSupply.Between, NameSupply.toNat_issued_fresh room]
    omega
  letters := by
    obtain ⟨es, letters, fromOperand⟩ := operand.letters
    have last := toNat_issued_repetition (A := A) room
    refine ⟨es, letters.widen (by omega), ?_⟩
    intro e
    rw [fromOperand, mem_edges_repetition]
    constructor
    · exact fun ⟨own, symbol⟩ => ⟨Or.inl (Or.inl own), symbol⟩
    · rintro ⟨(own | ⟨f, _, rfl⟩) | rfl, symbol⟩
      · exact ⟨own, symbol⟩
      · exact absurd rfl symbol
      · exact absurd rfl symbol

end Fragment

/-- How many names the characters of a pattern take, apart from those of its first branch. -/
def namesFor (text : List Char) : Nat :=
  2 * (text.count 'a' + text.count 'b') + text.count 'e' + text.count '*' + 3 * text.count '|' +
    2 * text.count '('

theorem namesFor_append (u v : List Char) : namesFor (u ++ v) = namesFor u + namesFor v := by
  simp only [namesFor, List.count_append]
  omega

theorem namesFor_cons (c : Char) (u : List Char) : namesFor (c :: u) = namesFor [c] + namesFor u :=
  namesFor_append [c] u

namespace Derivation

theorem names_eq {rule : Rule} (d : Derivation rule) :
    d.names = rule.emptyNames + namesFor d.text := by
  induction d with
  | last t ih => exact ih
  | bar t r iht ihr =>
    have bar : namesFor ['|'] = 3 := by decide
    rw [names, text, iht, ihr, namesFor_append, namesFor_cons, bar]
    simp only [Rule.emptyNames]
    omega
  | nothing => rfl
  | more t f iht ihf =>
    simp only [names, text, iht, ihf, namesFor_append, Rule.emptyNames]
    omega
  | once b ih => exact ih
  | star f ih =>
    have star : namesFor ['*'] = 1 := by decide
    simp only [names, text, ih, namesFor_append, star, Rule.emptyNames]
    omega
  | group r ih =>
    have opening : namesFor ['('] = 2 := by decide
    have closing : namesFor [')'] = 0 := by decide
    rw [names, text, ih, List.cons_append, namesFor_cons, namesFor_append, opening, closing]
    simp only [Rule.emptyNames]
    omega
  | letter c symbol =>
    rcases isSymbol_iff.mp symbol with rfl | rfl
    · rfl
    · rfl
  | mark => decide

theorem carries {rule : Rule} (d : Derivation rule) {s : NameSupply} (room : s.HasRoom d.names) :
    (d.build thompson s).1.Carries s.issued.toNat (d.build thompson s).2.issued.toNat
      (d.text.filter isSymbol) := by
  induction d generalizing s with
  | last t ih => exact (ih room).addSymbols inputSymbols
  | bar t r iht ihr =>
    obtain ⟨roomLeft, roomRight, roomUnion⟩ := room_bar room
    have left := (iht roomLeft).addSymbols inputSymbols
    have noBar : isSymbol '|' = false := by decide
    rw [text, List.filter_append, List.filter_cons_of_neg (by simp [noBar])]
    exact Fragment.carries_union left (ihr roomRight) roomUnion
  | nothing => exact Fragment.carries_empty room
  | more t f iht ihf =>
    obtain ⟨roomLeft, roomRight⟩ := room_more room
    rw [text, List.filter_append]
    exact Fragment.carries_concatenate (iht roomLeft) (ihf roomRight)
  | once b ih => exact ih room
  | star f ih =>
    obtain ⟨roomFactor, roomStar⟩ := room_star room
    have noStar : ['*'].filter isSymbol = [] := by decide
    rw [text, List.filter_append, noStar, List.append_nil]
    exact Fragment.carries_repetition (ih roomFactor) roomStar
  | group r ih =>
    have noOpen : isSymbol '(' = false := by decide
    have noClose : [')'].filter isSymbol = [] := by decide
    rw [text, List.cons_append, List.filter_cons_of_neg (by simp [noOpen]), List.filter_append,
      noClose, List.append_nil]
    exact ih room
  | letter c symbol =>
    have ordinary := ne_emptyMark_of_isSymbol symbol
    have count : Pool.primitiveNames c = 2 := if_neg ordinary
    rw [names, count] at room
    rw [text, List.filter_cons_of_pos symbol]
    exact Fragment.carries_primitive ordinary room
  | mark => exact Fragment.carries_primitive_mark room

theorem alphabet_term (s : NameSupply) :
    (t : Derivation .term) → (t.build thompson s).1.alphabet = .empty
  | .nothing => rfl
  | .more t _ => alphabet_term s t

theorem alphabet_regex (s : NameSupply) (r : Derivation .regex) :
    (r.build thompson s).1.alphabet.toList = inputSymbols := by
  have stamped (t : Derivation .term) :
      ((t.build thompson s).1.addSymbols inputSymbols).alphabet.toList = inputSymbols := by
    rw [Automaton.addSymbols, t.alphabet_term s]
    rfl
  cases r with
  | last t => exact stamped t
  | bar t r => exact stamped t

end Derivation

/-- The characters of a pattern tell the number of states, and these are numbered from zero on.
    Its automaton is over `a` and `b`; an edge reads one of them or nothing. From a state leads one
    symbol edge at most, to the next state, and in the order of the states these edges spell the
    letters of the pattern. -/
theorem compile_shape (pattern : String) (limit : Option Nat) (A : Automaton)
    (short : pattern.utf8ByteSize ≤ longestPattern) (success : compile limit pattern = .ok A) :
    (∀ s, s ∈ A.states ↔ s.index.toNat < 2 +
      (2 * (pattern.toList.count 'a' + pattern.toList.count 'b') + pattern.toList.count 'e' +
        pattern.toList.count '*' + 3 * pattern.toList.count '|' + 2 * pattern.toList.count '(')) ∧
    A.alphabet.toList = ['a', 'b'] ∧
    (∀ e ∈ A.edges, e.label = .epsilon ∨ e.label = .symbol 'a' ∨ e.label = .symbol 'b') ∧
    (∀ d ∈ A.edges, ∀ e ∈ A.edges, d.label ≠ .epsilon → e.label ≠ .epsilon →
      d.source = e.source → d = e) ∧
    (∀ e ∈ A.edges, e.label ≠ .epsilon → e.target.index.toNat = e.source.index.toNat + 1) ∧
    A.spelling = pattern.toList.filter fun c => c = 'a' ∨ c = 'b' := by
  obtain ⟨d, spelled, _, rfl⟩ := Reader.read_eq_ok_iff.mp success
  have room : (⟨0⟩ : NameSupply).HasRoom d.names := by
    apply Derivation.hasRoom_of_short
    rw [spelled, String.utf8Len_toList]
    exact short
  have carried := d.carries room
  have zero : (0 : UInt32).toNat = 0 := rfl
  rw [spelled, d.issued_build room, d.names_eq, spelled, zero, Nat.zero_add] at carried
  obtain ⟨es, letters, member⟩ := carried.letters
  refine ⟨?_, d.alphabet_regex ⟨0⟩, ?_, ?_, ?_, ?_⟩
  · intro s
    have range := carried.states s
    simp only [Nat.zero_le, true_and] at range
    exact range
  · intro e he
    by_cases silent : e.label = .epsilon
    · exact Or.inl silent
    · obtain ⟨c, place, label⟩ := letters.exists_symbol ((member e).mpr ⟨he, silent⟩)
      rcases isSymbol_iff.mp (List.mem_filter.mp place).2 with rfl | rfl
      · exact Or.inr (Or.inl label)
      · exact Or.inr (Or.inr label)
  · intro d hd e he reads reads' same
    exact letters.eq_of_source_eq ((member d).mpr ⟨hd, reads⟩) ((member e).mpr ⟨he, reads'⟩) same
  · intro e he reads
    exact letters.next e ((member e).mpr ⟨he, reads⟩)
  · rw [carried.spelling_eq]
    exact List.filter_congr fun c _ => Bool.eq_iff_iff.mpr (by simp [isSymbol_iff])

/-- The two letters of a choice inside a star keep their order, although the union around them
    gets its name last. -/
theorem compile_shape_repeated_choice : "b(a|e)*".utf8ByteSize ≤ longestPattern ∧
    ∃ A, compile (some 1) "b(a|e)*" = .ok A ∧ (∀ s, s ∈ A.states ↔ s.index.toNat < 13) ∧
      A.spelling = ['b', 'a'] := by
  have short : "b(a|e)*".utf8ByteSize ≤ longestPattern := by decide
  have success : ∃ A, compile (some 1) "b(a|e)*" = .ok A := ⟨_, rfl⟩
  obtain ⟨A, success⟩ := success
  obtain ⟨states, _, _, _, _, letters⟩ := compile_shape _ _ A short success
  exact ⟨short, A, success, states, letters⟩

end Thompson
