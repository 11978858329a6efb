import Thompson.Automaton.Basic
import Thompson.Proofs.Fragment.Pools
import Thompson.Proofs.Pattern.DeadEnds

/-!
How large automata are. No construction merges edges: what it adds leads from or into a state
where no such edge was before, because no edge leads into the start of a trim operand and two
operands share no state. So the numbers of states, edges and final states of a value follow from
those of its operands, and those of a pattern's automaton from its derivation.
-/
namespace Thompson

theorem OrderedSet.size_eq_length {α : Type} {s : OrderedSet α} {xs : List α} (nodup : xs.Nodup)
    (same : ∀ x, x ∈ s ↔ x ∈ xs) : s.size = xs.length :=
  ((List.perm_ext_iff_of_nodup s.nodup nodup).mpr same).length_eq

structure Size where
  states : Nat
  edges : Nat
  finals : Nat
  deriving DecidableEq

def Automaton.size (A : Automaton) : Size := ⟨A.states.size, A.transitionCount, A.finals.size⟩

def sizes : Construction Unit Size Unit where
  empty _ := (⟨2, 1, 1⟩, ())
  primitive c _ := (if c = emptyMark then ⟨1, 0, 1⟩ else ⟨2, 1, 1⟩, ())
  concatenate x y := ⟨x.states + y.states, x.edges + y.edges + x.finals, y.finals⟩
  union x y _ := (⟨x.states + y.states + 1, x.edges + y.edges + 2, x.finals + y.finals⟩, ())
  repetition x _ := (⟨x.states + 1, x.edges + x.finals + 1, x.finals + 1⟩, ())
  stamp := id
  describe _ := ()

def Derivation.size {rule : Rule} (d : Derivation rule) : Size := (d.build sizes ()).1

namespace Fragment

variable {A B : Automaton} {names : NameSupply}

theorem size_of_members {states finals : List State} {edges : List Edge}
    (nodupStates : states.Nodup) (sameStates : ∀ s, s ∈ A.states ↔ s ∈ states)
    (nodupEdges : edges.Nodup) (sameEdges : ∀ e, e ∈ A.edges ↔ e ∈ edges)
    (nodupFinals : finals.Nodup) (sameFinals : ∀ s, s ∈ A.finals ↔ s ∈ finals) :
    A.size = ⟨states.length, edges.length, finals.length⟩ := by
  have first := OrderedSet.size_eq_length nodupStates sameStates
  have second := OrderedSet.size_eq_length nodupEdges sameEdges
  have third := OrderedSet.size_eq_length nodupFinals sameFinals
  simp only [Automaton.size, Automaton.transitionCount, first, second, third]

theorem nodup_finalEdges (A : Automaton) (next : State) : (finalEdges A next).Nodup := by
  refine A.finals.nodup.map ?_
  intro s t same
  exact congrArg Edge.source same

theorem length_finalEdges (A : Automaton) (next : State) :
    (finalEdges A next).length = A.finals.size := List.length_map _

theorem finalEdges_new {next : State} (unreached : ∀ e ∈ A.edges, e.target ≠ next) :
    ∀ e ∈ A.edges, e ∉ finalEdges A next := by
  intro e own added
  obtain ⟨f, _, rfl⟩ := mem_finalEdges.mp added
  exact unreached _ own rfl

theorem nodup_append_of_apart {α : Type} {xs ys : List α} (first : xs.Nodup) (second : ys.Nodup)
    (apart : ∀ x ∈ xs, x ∉ ys) : (xs ++ ys).Nodup := by
  refine List.nodup_append.mpr ⟨first, second, ?_⟩
  intro x hx y hy same
  exact apart x hx (same ▸ hy)

theorem size_empty (names : NameSupply) : (empty names).1.size = ⟨2, 1, 1⟩ := by
  have ends : [(⟨names.issued⟩ : State), ⟨names.issued + 1⟩].Nodup := by simp
  refine size_of_members ends ?_
    (List.nodup_singleton ⟨⟨names.issued⟩, .epsilon, ⟨names.issued + 1⟩⟩) ?_
    (List.nodup_singleton ⟨names.issued + 1⟩) ?_
  · intro s
    rw [mem_states_empty, List.mem_pair]
  · intro e
    rw [mem_edges_empty, List.mem_singleton]
  · intro s
    rw [mem_finals_empty, List.mem_singleton]

theorem size_primitive (c : Char) (names : NameSupply) :
    (primitive c names).1.size = if c = emptyMark then ⟨1, 0, 1⟩ else ⟨2, 1, 1⟩ := by
  by_cases mark : c = emptyMark
  · rw [mark, if_pos rfl]
    refine size_of_members (List.nodup_singleton ⟨names.issued⟩) ?_ List.nodup_nil ?_
      (List.nodup_singleton ⟨names.issued⟩) ?_
    · intro s
      rw [mem_states_primitive_mark, List.mem_singleton]
    · intro e
      simp [primitive_mark]
    · intro s
      simp [primitive_mark]
  · rw [if_neg mark]
    have ends : [(⟨names.issued⟩ : State), ⟨names.issued + 1⟩].Nodup := by simp
    refine size_of_members ends ?_
      (List.nodup_singleton ⟨⟨names.issued⟩, .symbol c, ⟨names.issued + 1⟩⟩) ?_
      (List.nodup_singleton ⟨names.issued + 1⟩) ?_
    · intro s
      rw [mem_states_primitive mark, List.mem_pair]
    · intro e
      rw [mem_edges_primitive mark, List.mem_singleton]
    · intro s
      rw [mem_finals_primitive mark, List.mem_singleton]

theorem size_concatenate (first : A.WellFormed) (second : B.WellFormed) (apart : A.Apart B) :
    (concatenate A B).size = sizes.concatenate A.size B.size := by
  -- An edge between the operands is new: it leads out of the first one, where no edge led before.
  have across : ∀ e ∈ A.edges, e.target ≠ B.start := fun e own =>
    ne_of_mem_of_not_mem (first.target_mem e own) (apart.symm _ second.start_mem)
  have left : (A.edges.toList ++ finalEdges A B.start).Nodup :=
    nodup_append_of_apart A.edges.nodup (nodup_finalEdges A B.start) (finalEdges_new across)
  have inFirst : ∀ e ∈ A.edges.toList ++ finalEdges A B.start, e.source ∈ A.states := by
    intro e he
    rcases List.mem_append.mp he with own | added
    · exact first.source_mem e own
    · obtain ⟨f, final, rfl⟩ := mem_finalEdges.mp added
      exact first.finals_subset f final
  have whole : (A.edges.toList ++ finalEdges A B.start ++ B.edges.toList).Nodup := by
    refine nodup_append_of_apart left B.edges.nodup fun e before behind => ?_
    exact apart _ (inFirst e before) (second.source_mem e behind)
  have states : (A.states.toList ++ B.states.toList).Nodup :=
    nodup_append_of_apart A.states.nodup B.states.nodup apart
  refine (size_of_members states ?_ whole ?_ B.finals.nodup
    fun s => mem_finals_concatenate).trans ?_
  · intro s
    rw [mem_states_concatenate first second, List.mem_append]
    rfl
  · intro e
    simp only [mem_edges_concatenate, List.mem_append, mem_finalEdges, OrderedSet.mem_toList]
  · simp only [sizes, Automaton.size, Automaton.transitionCount, List.length_append,
      length_finalEdges]
    simp only [OrderedSet.size, Size.mk.injEq, true_and, and_true]
    omega

theorem size_union (first : A.WellFormed) (second : B.WellFormed) (apart : A.Apart B)
    (newFirst : ⟨names.issued⟩ ∉ A.states) (newSecond : ⟨names.issued⟩ ∉ B.states) :
    (union A B names).1.size = (sizes.union A.size B.size ()).1 := by
  have states : (A.states.toList ++ B.states.toList).Nodup :=
    nodup_append_of_apart A.states.nodup B.states.nodup apart
  have new : (⟨names.issued⟩ : State) ∉ A.states.toList ++ B.states.toList := by
    rw [List.mem_append, not_or]
    exact ⟨newFirst, newSecond⟩
  have finals : (A.finals.toList ++ B.finals.toList).Nodup := by
    refine nodup_append_of_apart A.finals.nodup B.finals.nodup fun s before behind => ?_
    exact apart s (first.finals_subset s before) (second.finals_subset s behind)
  have old : (A.edges.toList ++ B.edges.toList).Nodup := by
    refine nodup_append_of_apart A.edges.nodup B.edges.nodup fun e before behind => ?_
    exact apart _ (first.source_mem e before) (second.source_mem e behind)
  -- The operands have two starts, so there are two edges from the new one.
  have starts : A.start ≠ B.start := fun same =>
    apart _ first.start_mem (same ▸ second.start_mem)
  have added : [(⟨⟨names.issued⟩, .epsilon, A.start⟩ : Edge),
      ⟨⟨names.issued⟩, .epsilon, B.start⟩].Nodup := by
    simpa using starts
  have edges : (A.edges.toList ++ B.edges.toList ++ [(⟨⟨names.issued⟩, .epsilon, A.start⟩ : Edge),
      ⟨⟨names.issued⟩, .epsilon, B.start⟩]).Nodup := by
    refine nodup_append_of_apart old added fun e before behind => ?_
    have source : e.source = ⟨names.issued⟩ := by
      rcases List.mem_pair.mp behind with rfl | rfl <;> rfl
    rcases List.mem_append.mp before with own | own
    · exact newFirst (source ▸ first.source_mem e own)
    · exact newSecond (source ▸ second.source_mem e own)
  refine (size_of_members (List.nodup_cons.mpr ⟨new, states⟩) ?_ edges ?_ finals ?_).trans ?_
  · intro s
    rw [mem_states_union first second, List.mem_cons, List.mem_append]
    rfl
  · intro e
    simp only [mem_edges_union, List.mem_append, List.mem_pair, OrderedSet.mem_toList, or_assoc]
  · intro s
    rw [mem_finals_union, List.mem_append]
    rfl
  · simp only [sizes, Automaton.size, Automaton.transitionCount, OrderedSet.size, List.length_append,
      List.length_cons, List.length_nil]

theorem size_repetition (operand : A.Trim) (new : ⟨names.issued⟩ ∉ A.states) :
    (repetition A names).1.size = (sizes.repetition A.size ()).1 := by
  have wellFormed := operand.wellFormed
  -- No edge led into the old start, so those back into it are new.
  have back : (A.edges.toList ++ finalEdges A A.start).Nodup :=
    nodup_append_of_apart A.edges.nodup (nodup_finalEdges A A.start)
      (finalEdges_new operand.noReturn)
  have first : (⟨⟨names.issued⟩, .epsilon, A.start⟩ : Edge) ∉
      A.edges.toList ++ finalEdges A A.start := by
    intro known
    rcases List.mem_append.mp known with own | added
    · exact new (wellFormed.source_mem _ own)
    · obtain ⟨f, final, same⟩ := mem_finalEdges.mp added
      have source : ⟨names.issued⟩ = f := congrArg Edge.source same
      exact new (source ▸ wellFormed.finals_subset f final)
  have final : (⟨names.issued⟩ : State) ∉ A.finals.toList :=
    fun known => new (wellFormed.finals_subset _ known)
  refine (size_of_members (List.nodup_cons.mpr ⟨new, A.states.nodup⟩) ?_
    (List.nodup_cons.mpr ⟨first, back⟩) ?_ (List.nodup_cons.mpr ⟨final, A.finals.nodup⟩) ?_).trans ?_
  · intro s
    rw [mem_states_repetition wellFormed, List.mem_cons]
    rfl
  · intro e
    simp only [mem_edges_repetition, List.mem_cons, List.mem_append, mem_finalEdges,
      OrderedSet.mem_toList, or_comm]
  · intro s
    rw [mem_finals_repetition, List.mem_cons]
    rfl
  · simp only [sizes, Automaton.size, Automaton.transitionCount, List.length_append,
      List.length_cons, length_finalEdges]
    simp only [OrderedSet.size]

end Fragment

namespace Derivation

theorem states_size {rule : Rule} (d : Derivation rule) : d.size.states = d.names := by
  induction d with
  | last t ih => exact ih
  | bar t r iht ihr => exact congrArg₂ (· + · + 1) iht ihr
  | nothing => rfl
  | more t f iht ihf => exact congrArg₂ (· + ·) iht ihf
  | once b ih => exact ih
  | star f ih => exact congrArg (· + 1) ih
  | group r ih => exact ih
  | letter c symbol =>
    have ordinary := ne_emptyMark_of_isSymbol symbol
    simp [size, build, sizes, names, Pool.primitiveNames, ordinary]
  | mark => rfl

theorem size_build {rule : Rule} (d : Derivation rule) {s : NameSupply} (room : s.HasRoom d.names) :
    (d.build thompson s).1.size = d.size := by
  induction d generalizing s with
  | last t ih => exact ih room
  | bar t r iht ihr =>
    obtain ⟨roomLeft, roomRight, _⟩ := room_bar room
    have left := (t.faithful roomLeft).within.addSymbols inputSymbols
    have right := (r.faithful roomRight).within
    have joined := Fragment.size_union left.wellFormed right.wellFormed
      (Automaton.Apart.symm (left.disjoint right))
      (left.next_not_mem (Nat.le_of_lt right.lt)) (right.next_not_mem (Nat.le_refl _))
    -- The symbols that are put on the left branch do not change its size.
    refine joined.trans ?_
    rw [ihr roomRight]
    exact congrArg (fun x => (sizes.union x r.size ()).1) (iht roomLeft)
  | nothing => exact Fragment.size_empty s
  | more t f iht ihf =>
    obtain ⟨roomLeft, roomRight⟩ := room_more room
    have left := (t.faithful roomLeft).within
    have right := (f.faithful roomRight).within
    have joined := Fragment.size_concatenate left.wellFormed right.wellFormed
      (Automaton.Apart.symm (left.disjoint right))
    rw [iht roomLeft, ihf roomRight] at joined
    exact joined
  | once b ih => exact ih room
  | star f ih =>
    obtain ⟨roomFactor, _⟩ := room_star room
    have operand := (f.faithful roomFactor).within
    have repeated := Fragment.size_repetition (f.trim roomFactor)
      (operand.next_not_mem (Nat.le_refl _))
    rw [ih roomFactor] at repeated
    exact repeated
  | group r ih => exact ih room
  | letter c symbol => exact Fragment.size_primitive c s
  | mark => exact Fragment.size_primitive emptyMark s

end Derivation

namespace Pool.Sound

variable {p : Pool} {x y : Automaton} {rest : List Automaton} (pool : p.Sound) (cs ds : List Char)
include pool

theorem size_concatenate (operands : p.live.Perm (x :: y :: rest)) :
    (Fragment.concatenate (x.addSymbols cs) (y.addSymbols ds)).size =
      sizes.concatenate x.size y.size := by
  have first := operands.mem_iff.mpr List.mem_cons_self
  have second := operands.mem_iff.mpr (List.mem_cons_of_mem _ List.mem_cons_self)
  have apart := List.rel_of_pairwise_cons (pool.perm operands).apart List.mem_cons_self
  exact Fragment.size_concatenate ((pool.trim x first).wellFormed.addSymbols cs)
    ((pool.trim y second).wellFormed.addSymbols ds) apart

theorem size_union (operands : p.live.Perm (x :: y :: rest)) :
    (Fragment.union (x.addSymbols cs) (y.addSymbols ds) p.names).1.size =
      (sizes.union x.size y.size ()).1 := by
  have first := operands.mem_iff.mpr List.mem_cons_self
  have second := operands.mem_iff.mpr (List.mem_cons_of_mem _ List.mem_cons_self)
  have apart := List.rel_of_pairwise_cons (pool.perm operands).apart List.mem_cons_self
  have newFirst := pool.next_not_mem first
  have newSecond := pool.next_not_mem second
  exact Fragment.size_union ((pool.trim x first).wellFormed.addSymbols cs)
    ((pool.trim y second).wellFormed.addSymbols ds) apart newFirst newSecond

theorem size_repetition (operand : x ∈ p.live) :
    (Fragment.repetition (x.addSymbols cs) p.names).1.size = (sizes.repetition x.size ()).1 := by
  have new := pool.next_not_mem operand
  exact Fragment.size_repetition ((pool.trim x operand).addSymbols cs) new

end Pool.Sound

/-- Whatever was made of fragments before, and whatever symbols were put on them: a value has the
    states of its operands and the new one, their edges and all that are added, and as many final
    states as are said. As long as the names last, the automaton of a pattern is as large as its
    derivation says by the same rules. -/
theorem sizes_exact :
    (∀ (names : NameSupply) (c : Char), (Fragment.empty names).1.size = ⟨2, 1, 1⟩ ∧
      (Fragment.primitive c names).1.size = if c = emptyMark then ⟨1, 0, 1⟩ else ⟨2, 1, 1⟩) ∧
    (∀ p : Pool, p.Reachable → ∀ x y rest cs ds, p.live.Perm (x :: y :: rest) →
      (Fragment.concatenate (x.addSymbols cs) (y.addSymbols ds)).size =
        ⟨x.size.states + y.size.states, x.size.edges + y.size.edges + x.size.finals,
          y.size.finals⟩ ∧
      (Fragment.union (x.addSymbols cs) (y.addSymbols ds) p.names).1.size =
        ⟨x.size.states + y.size.states + 1, x.size.edges + y.size.edges + 2,
          x.size.finals + y.size.finals⟩) ∧
    (∀ p : Pool, p.Reachable → ∀ x cs, x ∈ p.live →
      (Fragment.repetition (x.addSymbols cs) p.names).1.size =
        ⟨x.size.states + 1, x.size.edges + x.size.finals + 1, x.size.finals + 1⟩) ∧
    ∀ pattern limit A, compile limit pattern = .ok A → ∃ d : Derivation .regex,
      d.text = pattern.toList ∧
      (∀ other : Derivation .regex, other.text = pattern.toList → other = d) ∧
      (pattern.utf8ByteSize ≤ longestPattern → d.size.states < UInt32.size) ∧
      (d.size.states < UInt32.size → A.size = d.size) := by
  refine ⟨fun names c => ⟨Fragment.size_empty names, Fragment.size_primitive c names⟩, ?_, ?_, ?_⟩
  · intro p reached x y rest cs ds operands
    have pool := reached.sound
    exact ⟨pool.size_concatenate cs ds operands, pool.size_union cs ds operands⟩
  · intro p reached x cs operand
    exact reached.sound.size_repetition cs operand
  · intro pattern limit A success
    obtain ⟨d, spelled, _, rfl⟩ := Reader.read_eq_ok_iff.mp success
    have zero : (⟨0⟩ : NameSupply).HasRoom d.names ↔ d.size.states < UInt32.size := by
      rw [d.states_size, NameSupply.HasRoom, UInt32.toNat_zero, Nat.zero_add]
    refine ⟨d, spelled, ?_, ?_, ?_⟩
    · intro other same
      exact other.eq_of_text_eq d (same.trans spelled.symm)
    · intro short
      refine zero.mp (Derivation.hasRoom_of_short ?_)
      rw [spelled, String.utf8Len_toList]
      exact short
    · intro last
      exact d.size_build (zero.mpr last)

/-- A star of a choice with two final states, beside a letter; and a pattern with a star inside a
    choice inside a star. -/
theorem sizes_exact_repeated_choice : ∃ (p : Pool) (x y : Automaton), p.Reachable ∧
    p.live.Perm [x, y] ∧ x.size = ⟨5, 6, 3⟩ ∧ y.size = ⟨2, 1, 1⟩ ∧
    (Fragment.concatenate x y).size = ⟨7, 10, 1⟩ ∧ (Fragment.union x y p.names).1.size = ⟨8, 9, 4⟩ ∧
    (Fragment.repetition x p.names).1.size = ⟨6, 10, 4⟩ ∧
    ∃ A, compile (some 1) "(a|b*)*" = .ok A ∧ A.size = ⟨13, 16, 4⟩ := by
  have letter := Pool.Reachable.start.primitive 'a' (by decide)
  have choice := (letter.primitive emptyMark (by decide)).union (.refl _) (by decide)
  have repeated := choice.repetition (.refl _) (by decide)
  have beside := repeated.primitive 'b' (by decide)
  obtain ⟨_, joined, again, patterns⟩ := sizes_exact
  obtain ⟨row, either⟩ := joined _ beside _ _ [] [] [] (.swap _ _ _)
  have star := again _ beside _ [] (List.mem_cons_of_mem _ List.mem_cons_self)
  let inner : Derivation .regex := .bar (.more .nothing (.once (.letter 'a' rfl)))
    (.last (.more .nothing (.star (.once (.letter 'b' rfl)))))
  let whole : Derivation .regex := .last (.more .nothing (.star (.once (.group inner))))
  have success : ∃ A, compile (some 1) "(a|b*)*" = .ok A := ⟨_, rfl⟩
  obtain ⟨A, success⟩ := success
  obtain ⟨d, _, only, enough, same⟩ := patterns _ _ A success
  have size := same (enough (by decide))
  rw [← only whole rfl] at size
  exact ⟨_, _, _, beside, .swap _ _ _, rfl, rfl, row, either, star, A, success, size⟩

end Thompson
