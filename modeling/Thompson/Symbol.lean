/-!
The letters of patterns and inputs. Inputs range over all characters; an automaton
read from a pattern is over `a` and `b`. The letter `e` of a pattern stands for the
empty text and is kept out of every set of symbols.
-/
namespace Thompson

/-- The letter that stands for the empty text in a pattern. -/
def emptyMark : Char := 'e'

def inputSymbols : List Char := ['a', 'b']

/-- Metacharacters and the mark for the empty text are not symbols. -/
def isSymbol (c : Char) : Bool := inputSymbols.contains c

theorem isSymbol_iff {c : Char} : isSymbol c = true ↔ c = 'a' ∨ c = 'b' := by
  simp [isSymbol, inputSymbols]

theorem isSymbol_emptyMark : isSymbol emptyMark = false := by decide

theorem ne_emptyMark_of_isSymbol {c : Char} (symbol : isSymbol c = true) : c ≠ emptyMark := by
  intro same
  rw [same, isSymbol_emptyMark] at symbol
  contradiction

structure SymbolSet where
  toList : List Char
  ascending : toList.Pairwise (· < ·)

namespace SymbolSet

theorem ext {s t : SymbolSet} (h : s.toList = t.toList) : s = t := by
  cases s; cases t; cases h; rfl

instance : DecidableEq SymbolSet := fun s t =>
  decidable_of_iff (s.toList = t.toList) ⟨ext, fun h => h ▸ rfl⟩

instance : Membership Char SymbolSet := ⟨fun s c => c ∈ s.toList⟩

theorem mem_toList {s : SymbolSet} {c : Char} : c ∈ s.toList ↔ c ∈ s := Iff.rfl

instance (c : Char) (s : SymbolSet) : Decidable (c ∈ s) :=
  inferInstanceAs (Decidable (c ∈ s.toList))

def empty : SymbolSet := ⟨[], .nil⟩

@[simp] theorem not_mem_empty (c : Char) : c ∉ empty := by
  simp [← mem_toList, empty]

def place (c : Char) : List Char → List Char
  | [] => [c]
  | d :: ds => if c < d then c :: d :: ds else if c = d then d :: ds else d :: place c ds

theorem mem_place {c x : Char} {ds : List Char} : x ∈ place c ds ↔ x = c ∨ x ∈ ds := by
  induction ds with
  | nil => simp [place]
  | cons d ds ih =>
    simp only [place]
    split
    · simp
    · split
      · rename_i same
        simp [same]
      · simp only [List.mem_cons, ih]
        exact or_left_comm

theorem place_ascending {c : Char} {ds : List Char} (h : ds.Pairwise (· < ·)) :
    (place c ds).Pairwise (· < ·) := by
  induction ds with
  | nil => simp [place]
  | cons d ds ih =>
    obtain ⟨below, rest⟩ := List.pairwise_cons.mp h
    simp only [place]
    split
    · rename_i less
      refine List.pairwise_cons.mpr ⟨?_, h⟩
      intro x hx
      rcases List.mem_cons.mp hx with rfl | later
      · exact less
      · exact Char.lt_trans less (below x later)
    · split
      · exact h
      · rename_i notLess notSame
        refine List.pairwise_cons.mpr ⟨?_, ih rest⟩
        intro x hx
        rcases mem_place.mp hx with rfl | later
        · exact Char.not_le.mp fun le => notSame (Char.le_antisymm le (Char.not_lt.mp notLess))
        · exact below x later

def insert (s : SymbolSet) (c : Char) : SymbolSet := ⟨place c s.toList, place_ascending s.ascending⟩

@[simp] theorem mem_insert {s : SymbolSet} {c x : Char} : x ∈ s.insert c ↔ x = c ∨ x ∈ s := mem_place

def insertAll (s : SymbolSet) (cs : List Char) : SymbolSet := cs.foldl insert s

@[simp] theorem mem_insertAll {s : SymbolSet} {cs : List Char} {x : Char} :
    x ∈ s.insertAll cs ↔ x ∈ cs ∨ x ∈ s := by
  induction cs generalizing s with
  | nil => simp [insertAll]
  | cons c cs ih =>
    have step : s.insertAll (c :: cs) = (s.insert c).insertAll cs := rfl
    rw [step, ih, mem_insert, List.mem_cons]
    exact ⟨fun | .inl h => .inl (.inr h) | .inr (.inl h) => .inl (.inl h) | .inr (.inr h) => .inr h,
      fun | .inl (.inl h) => .inr (.inl h) | .inl (.inr h) => .inl h | .inr h => .inr (.inr h)⟩

theorem eq_of_same_members {s t : SymbolSet} (h : ∀ c, c ∈ s ↔ c ∈ t) : s = t := by
  obtain ⟨xs, hxs⟩ := s
  obtain ⟨ys, hys⟩ := t
  apply ext
  simp only [← mem_toList] at h
  show xs = ys
  induction xs generalizing ys with
  | nil => exact (List.eq_nil_iff_forall_not_mem.mpr fun y hy => by simpa using (h y).mpr hy).symm
  | cons x xs ih =>
    cases ys with
    | nil => simpa using (h x).mp (by simp)
    | cons y ys =>
      obtain ⟨belowX, restX⟩ := List.pairwise_cons.mp hxs
      obtain ⟨belowY, restY⟩ := List.pairwise_cons.mp hys
      have same : x = y := by
        rcases List.mem_cons.mp ((h x).mp (by simp)) with same | later
        · exact same
        · rcases List.mem_cons.mp ((h y).mpr (by simp)) with same | earlier
          · exact same.symm
          · exact absurd (Char.lt_trans (belowY x later) (belowX y earlier)) (Char.lt_irrefl y)
      subst same
      congr 1
      refine ih restX ys restY fun c => ⟨fun hc => ?_, fun hc => ?_⟩
      · rcases List.mem_cons.mp ((h c).mp (List.mem_cons_of_mem _ hc)) with rfl | later
        · exact absurd (belowX _ hc) (Char.lt_irrefl _)
        · exact later
      · rcases List.mem_cons.mp ((h c).mpr (List.mem_cons_of_mem _ hc)) with rfl | later
        · exact absurd (belowY _ hc) (Char.lt_irrefl _)
        · exact later

end SymbolSet

end Thompson
