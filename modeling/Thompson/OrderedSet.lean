import Std.Data.HashSet

/-!
Finite sets that remember the order in which their members first came in. The
list of members never repeats, so a set has two views: membership, and the order
of `toList`. Every operation below states what it does to both.
-/
namespace Thompson

variable {α : Type}

/-- The members of a list, each at the place of its first occurrence. -/
def firsts [DecidableEq α] : List α → List α
  | [] => []
  | x :: xs => x :: (firsts xs).filter (· ≠ x)

@[simp] theorem mem_firsts [DecidableEq α] {x : α} {xs : List α} : x ∈ firsts xs ↔ x ∈ xs := by
  induction xs with
  | nil => simp [firsts]
  | cons y ys ih => by_cases h : x = y <;> simp [firsts, ih, h]

theorem nodup_firsts [DecidableEq α] (xs : List α) : (firsts xs).Nodup := by
  induction xs with
  | nil => simp [firsts]
  | cons y ys ih => exact List.nodup_cons.mpr ⟨by simp, ih.filter _⟩

theorem firsts_of_nodup [DecidableEq α] {xs : List α} (h : xs.Nodup) : firsts xs = xs := by
  induction xs with
  | nil => rfl
  | cons y ys ih =>
    obtain ⟨hy, hys⟩ := List.nodup_cons.mp h
    rw [firsts, ih hys, List.filter_eq_self.mpr]
    intro x hx
    have different : x ≠ y := fun same => hy (same ▸ hx)
    simpa using different

theorem firsts_append [DecidableEq α] (xs ys : List α) :
    firsts (xs ++ ys) = firsts xs ++ (firsts ys).filter (· ∉ xs) := by
  induction xs with
  | nil => simp [firsts, List.filter_eq_self.mpr]
  | cons x xs ih =>
    simp only [List.cons_append, firsts, ih, List.filter_append, List.filter_filter]
    congr 2
    apply List.filter_congr
    intro y _
    by_cases h : y = x <;> simp [h]

theorem firsts_concat [DecidableEq α] (xs : List α) (x : α) :
    firsts (xs ++ [x]) = if x ∈ xs then firsts xs else firsts xs ++ [x] := by
  rw [firsts_append]
  split
  · rename_i known
    simp [firsts, known]
  · rename_i new
    simp [firsts, new]

/-- The members of `t` that `s` lacks. If both are long, the members of `t` are looked up in
    a table, from which one pass through `s` takes what both have. -/
def lacking [DecidableEq α] [Hashable α] (s t : List α) : List α :=
  if s.length ≤ 64 ∨ t.length ≤ 64 then t.filter (· ∉ s)
  else
    let left := s.foldl (fun left x => left.erase x) (Std.HashSet.ofList t)
    t.filter left.contains

theorem contains_foldl_erase [DecidableEq α] [Hashable α] (s : List α) (left : Std.HashSet α) (x : α) :
    (s.foldl (fun left y => left.erase y) left).contains x = (left.contains x && decide (x ∉ s)) := by
  induction s generalizing left with
  | nil => simp
  | cons y s ih =>
    rw [List.foldl_cons, ih, Std.HashSet.contains_erase]
    by_cases h : y = x
    · simp [h]
    · have other : (y == x) = false := by simpa using h
      simp [other, Ne.symm h]

theorem lacking_eq [DecidableEq α] [Hashable α] (s t : List α) :
    lacking s t = t.filter (· ∉ s) := by
  unfold lacking
  split
  · rfl
  · apply List.filter_congr
    intro x hx
    simp [contains_foldl_erase, Std.HashSet.contains_ofList, hx]

/-- A set whose members keep the order of their insertion. -/
structure OrderedSet (α : Type) where
  toList : List α
  nodup : toList.Nodup

namespace OrderedSet

theorem ext {s t : OrderedSet α} (h : s.toList = t.toList) : s = t := by
  cases s; cases t; cases h; rfl

instance : Membership α (OrderedSet α) := ⟨fun s x => x ∈ s.toList⟩

theorem mem_toList {s : OrderedSet α} {x : α} : x ∈ s.toList ↔ x ∈ s := Iff.rfl

instance [DecidableEq α] : DecidableEq (OrderedSet α) := fun s t =>
  decidable_of_iff (s.toList = t.toList) ⟨ext, fun h => h ▸ rfl⟩

instance [DecidableEq α] (x : α) (s : OrderedSet α) : Decidable (x ∈ s) :=
  inferInstanceAs (Decidable (x ∈ s.toList))

def size (s : OrderedSet α) : Nat := s.toList.length

def empty : OrderedSet α := ⟨[], List.nodup_nil⟩

@[simp] theorem toList_empty : (empty : OrderedSet α).toList = [] := rfl

@[simp] theorem not_mem_empty (x : α) : x ∉ (empty : OrderedSet α) := by
  simp [← mem_toList]

def singleton (x : α) : OrderedSet α := ⟨[x], by simp⟩

@[simp] theorem toList_singleton (x : α) : (singleton x).toList = [x] := rfl

@[simp] theorem mem_singleton {x y : α} : x ∈ singleton y ↔ x = y := by
  simp [← mem_toList]

variable [DecidableEq α]

def ofList (xs : List α) : OrderedSet α := ⟨firsts xs, nodup_firsts xs⟩

@[simp] theorem ofList_nil : ofList ([] : List α) = empty := rfl

@[simp] theorem mem_ofList {x : α} {xs : List α} : x ∈ ofList xs ↔ x ∈ xs := mem_firsts

theorem ofList_toList (s : OrderedSet α) : ofList s.toList = s := ext (firsts_of_nodup s.nodup)

/-- A member already there stays where it is; a new one comes last. -/
def insert (s : OrderedSet α) (x : α) : OrderedSet α :=
  if h : x ∈ s then s
  else ⟨s.toList ++ [x], by
    refine List.nodup_append.mpr ⟨s.nodup, by simp, ?_⟩
    intro a ha b hb same
    obtain rfl := List.mem_singleton.mp hb
    exact h (same ▸ ha)⟩

theorem insert_of_mem {s : OrderedSet α} {x : α} (h : x ∈ s) : s.insert x = s := by
  simp [insert, h]

theorem toList_insert_of_not_mem {s : OrderedSet α} {x : α} (h : x ∉ s) :
    (s.insert x).toList = s.toList ++ [x] := by
  simp [insert, h]

@[simp] theorem mem_insert {s : OrderedSet α} {x y : α} : y ∈ s.insert x ↔ y = x ∨ y ∈ s := by
  by_cases h : x ∈ s
  · rw [insert_of_mem h]
    exact ⟨Or.inr, fun either => either.elim (fun same => same ▸ h) id⟩
  · rw [← mem_toList, toList_insert_of_not_mem h]
    simp [mem_toList, or_comm]

theorem ofList_concat (xs : List α) (x : α) : ofList (xs ++ [x]) = (ofList xs).insert x := by
  apply ext
  by_cases known : x ∈ xs
  · rw [insert_of_mem (mem_ofList.mpr known)]
    simp only [ofList, firsts_concat, if_pos known]
  · have absent : x ∉ ofList xs := fun inside => known (mem_ofList.mp inside)
    rw [toList_insert_of_not_mem absent]
    simp only [ofList, firsts_concat, if_neg known]

def erase (s : OrderedSet α) (x : α) : OrderedSet α :=
  ⟨s.toList.filter (· ≠ x), s.nodup.filter _⟩

@[simp] theorem toList_erase (s : OrderedSet α) (x : α) :
    (s.erase x).toList = s.toList.filter (· ≠ x) := rfl

@[simp] theorem mem_erase {s : OrderedSet α} {x y : α} : y ∈ s.erase x ↔ y ∈ s ∧ y ≠ x := by
  simp [← mem_toList]

theorem mem_foldl_erase {s : OrderedSet α} {xs : List α} {x : α} :
    x ∈ xs.foldl erase s ↔ x ∈ s ∧ x ∉ xs := by
  induction xs generalizing s with
  | nil => simp
  | cons y xs ih =>
    rw [List.foldl_cons, ih, mem_erase, List.mem_cons, not_or]
    exact and_assoc

theorem foldl_erase_toList (s : OrderedSet α) : s.toList.foldl erase s = empty := by
  apply ext
  apply List.eq_nil_iff_forall_not_mem.mpr
  intro x member
  have left := mem_foldl_erase.mp member
  exact left.2 left.1

/-- The members of `s`, then those that only `t` has. -/
def union [Hashable α] (s t : OrderedSet α) : OrderedSet α :=
  ⟨s.toList ++ lacking s.toList t.toList, by
    rw [lacking_eq]
    refine List.nodup_append.mpr ⟨s.nodup, t.nodup.filter _, ?_⟩
    intro a ha b hb same
    exact (by simpa using (List.mem_filter.mp hb).2 : b ∉ s.toList) (same ▸ ha)⟩

@[simp] theorem toList_union [Hashable α] (s t : OrderedSet α) :
    (s.union t).toList = s.toList ++ t.toList.filter (· ∉ s.toList) := by
  simp [union, lacking_eq]

@[simp] theorem mem_union [Hashable α] {s t : OrderedSet α} {x : α} :
    x ∈ s.union t ↔ x ∈ s ∨ x ∈ t := by
  by_cases h : x ∈ s.toList <;> simp [← mem_toList, h]

theorem toList_union_of_disjoint [Hashable α] {s t : OrderedSet α} (h : ∀ x ∈ t, x ∉ s) :
    (s.union t).toList = s.toList ++ t.toList := by
  rw [toList_union, List.filter_eq_self.mpr]
  intro x hx
  exact decide_eq_true (h x hx)

theorem union_empty [Hashable α] (s : OrderedSet α) : s.union .empty = s := by
  apply ext
  simp

theorem union_self [Hashable α] (s : OrderedSet α) : s.union s = s := by
  apply ext
  simp

theorem union_assoc [Hashable α] (s t u : OrderedSet α) :
    (s.union t).union u = s.union (t.union u) := by
  apply ext
  simp only [toList_union, List.filter_append, List.filter_filter, List.append_assoc]
  congr 2
  apply List.filter_congr
  intro x _
  by_cases before : x ∈ s.toList
  · simp [before]
  · simp [before]

theorem union_insert [Hashable α] (s t : OrderedSet α) (x : α) :
    s.union (t.insert x) = (s.union t).insert x := by
  apply ext
  by_cases inside : x ∈ t
  · have known : x ∈ s.union t := mem_union.mpr (Or.inr inside)
    rw [insert_of_mem inside, insert_of_mem known]
  · by_cases before : x ∈ s
    · have known : x ∈ s.union t := mem_union.mpr (Or.inl before)
      rw [insert_of_mem known]
      simp [toList_insert_of_not_mem inside, mem_toList, before]
    · have new : x ∉ s.union t := by
        rw [mem_union, not_or]
        exact ⟨before, inside⟩
      rw [toList_insert_of_not_mem new]
      simp [toList_insert_of_not_mem inside, mem_toList, before]

theorem union_ofList_append [Hashable α] (s : OrderedSet α) (xs ys : List α) :
    s.union (ofList (xs ++ ys)) = (s.union (ofList xs)).union (ofList ys) := by
  apply ext
  simp only [toList_union, ofList, firsts_append, List.filter_append, List.filter_filter,
    List.append_assoc]
  congr 2
  apply List.filter_congr
  intro y _
  by_cases before : y ∈ s.toList
  · simp [before]
  · simp [before]

theorem union_ofList_cons [Hashable α] (s : OrderedSet α) (x : α) (xs : List α) :
    s.union (ofList (x :: xs)) = (s.insert x).union (ofList xs) := by
  have one : s.union (ofList [x]) = s.insert x := by
    have last := ofList_concat [] x
    rw [List.nil_append, ofList_nil] at last
    rw [last, union_insert, union_empty]
  rw [← List.singleton_append, union_ofList_append, one]

/-- Both sets have the same members, in whatever order. -/
def Same (s t : OrderedSet α) : Prop := ∀ x, x ∈ s ↔ x ∈ t

omit [DecidableEq α] in
theorem same_iff {s t : OrderedSet α} :
    Same s t ↔ (∀ x ∈ s.toList, x ∈ t) ∧ ∀ x ∈ t.toList, x ∈ s :=
  ⟨fun h => ⟨fun x => (h x).mp, fun x => (h x).mpr⟩, fun h x => ⟨h.1 x, h.2 x⟩⟩

instance (s t : OrderedSet α) : Decidable (Same s t) := decidable_of_iff _ same_iff.symm

theorem same_union_comm [Hashable α] (s t : OrderedSet α) : Same (s.union t) (t.union s) := by
  intro x
  rw [mem_union, mem_union, or_comm]

end OrderedSet

end Thompson
