/-!
Finite maps that remember the order in which their keys first came in. A value is changed in
its place; a key that was not there gets a value to start from and comes last. Two maps are
merged key by key, in the order of the second one.
-/
namespace Thompson

variable {κ ν : Type} [DecidableEq κ]

def change (k : κ) (new : ν) (f : ν → ν) : List (κ × ν) → List (κ × ν)
  | [] => [(k, f new)]
  | (j, v) :: rest => if j = k then (k, f v) :: rest else (j, v) :: change k new f rest

section Change

variable {k j : κ} {new : ν} {f g : ν → ν} {es : List (κ × ν)}

theorem keys_change_of_mem (present : k ∈ es.map Prod.fst) :
    (change k new f es).map Prod.fst = es.map Prod.fst := by
  induction es with
  | nil => contradiction
  | cons e rest ih =>
    obtain ⟨i, v⟩ := e
    by_cases here : i = k
    · simp [change, here]
    · have later : k ∈ rest.map Prod.fst := (List.mem_cons.mp present).resolve_left (Ne.symm here)
      simp only [change, here, if_false, List.map_cons, ih later]

theorem change_of_not_mem (absent : k ∉ es.map Prod.fst) :
    change k new f es = es ++ [(k, f new)] := by
  induction es with
  | nil => rfl
  | cons e rest ih =>
    obtain ⟨i, v⟩ := e
    simp only [List.map_cons, List.mem_cons, not_or] at absent
    simp only [change, Ne.symm absent.1, if_false, ih absent.2, List.cons_append]

theorem mem_keys_change : j ∈ (change k new f es).map Prod.fst ↔ j = k ∨ j ∈ es.map Prod.fst := by
  by_cases present : k ∈ es.map Prod.fst
  · rw [keys_change_of_mem present]
    constructor
    · exact Or.inr
    · rintro (rfl | there)
      · exact present
      · exact there
  · rw [change_of_not_mem present, List.map_append, List.mem_append]
    simp [or_comm]

theorem nodup_keys_change (distinct : (es.map Prod.fst).Nodup) :
    ((change k new f es).map Prod.fst).Nodup := by
  by_cases present : k ∈ es.map Prod.fst
  · rwa [keys_change_of_mem present]
  · rw [change_of_not_mem present, List.map_append]
    refine List.nodup_append.mpr ⟨distinct, by simp, ?_⟩
    intro i there j last same
    simp only [List.map_cons, List.map_nil, List.mem_singleton] at last
    exact present (last ▸ same ▸ there)

theorem change_change : change k new g (change k new f es) = change k new (fun v => g (f v)) es := by
  induction es with
  | nil => simp [change]
  | cons e rest ih =>
    obtain ⟨i, v⟩ := e
    by_cases here : i = k
    · simp [change, here]
    · simp only [change, here, if_false, ih]

theorem change_comm (present : k ∈ es.map Prod.fst) (different : j ≠ k) :
    change j new g (change k new f es) = change k new f (change j new g es) := by
  induction es with
  | nil => contradiction
  | cons e rest ih =>
    obtain ⟨i, v⟩ := e
    by_cases here : i = k
    · subst i
      simp [change, Ne.symm different]
    · have later : k ∈ rest.map Prod.fst := (List.mem_cons.mp present).resolve_left (Ne.symm here)
      by_cases there : i = j
      · subst i
        simp [change, here]
      · simp only [change, here, there, if_false, ih later]

theorem lookup_change_self :
    (change k new f es).lookup k = some (f ((es.lookup k).getD new)) := by
  induction es with
  | nil => simp [change]
  | cons e rest ih =>
    obtain ⟨i, v⟩ := e
    by_cases here : i = k
    · simp [change, here]
    · have other : (k == i) = false := by simpa using Ne.symm here
      simp only [change, here, if_false, List.lookup_cons, other, ih]

theorem lookup_change_of_ne (different : j ≠ k) :
    (change k new f es).lookup j = es.lookup j := by
  have other : (j == k) = false := by simpa using different
  induction es with
  | nil => simp only [change, List.lookup_cons, List.lookup_nil, other]
  | cons e rest ih =>
    obtain ⟨i, v⟩ := e
    by_cases here : i = k
    · subst i
      simp only [change, if_true, List.lookup_cons, other]
    · simp only [change, here, if_false, List.lookup_cons, ih]

theorem change_eq_self {v : ν} (found : es.lookup k = some v) (fixed : f v = v) :
    change k new f es = es := by
  induction es with
  | nil => contradiction
  | cons e rest ih =>
    obtain ⟨i, w⟩ := e
    by_cases here : i = k
    · subst i
      simp only [List.lookup_cons_self, Option.some.injEq] at found
      simp only [change, if_true, found, fixed]
    · have other : (k == i) = false := by simpa using Ne.symm here
      simp only [List.lookup_cons, other] at found
      simp only [change, here, if_false, ih found]

theorem change_ne_nil : change k new f es ≠ [] := by
  cases es with
  | nil => simp [change]
  | cons e rest =>
    simp only [change]
    split
    · simp
    · simp

theorem mem_change {e : κ × ν} (member : e ∈ change k new f es) :
    e ∈ es ∨ ∃ v, (v = new ∨ (k, v) ∈ es) ∧ e = (k, f v) := by
  induction es with
  | nil => exact Or.inr ⟨new, Or.inl rfl, List.mem_singleton.mp member⟩
  | cons d rest ih =>
    obtain ⟨i, w⟩ := d
    by_cases here : i = k
    · subst i
      simp only [change, if_true] at member
      rcases List.mem_cons.mp member with changed | later
      · exact Or.inr ⟨w, Or.inr List.mem_cons_self, changed⟩
      · exact Or.inl (List.mem_cons_of_mem _ later)
    · simp only [change, here, if_false] at member
      rcases List.mem_cons.mp member with same | later
      · exact Or.inl (same ▸ List.mem_cons_self)
      · rcases ih later with old | ⟨v, origin, changed⟩
        · exact Or.inl (List.mem_cons_of_mem _ old)
        · exact Or.inr ⟨v, origin.imp id (List.mem_cons_of_mem _), changed⟩

end Change

structure OrderedMap (κ ν : Type) where
  entries : List (κ × ν)
  distinct : (entries.map Prod.fst).Nodup

namespace OrderedMap

omit [DecidableEq κ] in
theorem ext {m n : OrderedMap κ ν} (h : m.entries = n.entries) : m = n := by
  cases m; cases n; cases h; rfl

def empty : OrderedMap κ ν := ⟨[], List.nodup_nil⟩

def keys (m : OrderedMap κ ν) : List κ := m.entries.map Prod.fst

def get? (m : OrderedMap κ ν) (k : κ) : Option ν := m.entries.lookup k

/-- Changes the value of a key, which is `new` if the key was not there. -/
def update (m : OrderedMap κ ν) (k : κ) (new : ν) (f : ν → ν) : OrderedMap κ ν :=
  ⟨change k new f m.entries, nodup_keys_change m.distinct⟩

/-- Combines the value of each entry into that of its key. -/
def takeIn (combine : ν → ν → ν) (new : ν) (m : OrderedMap κ ν) (es : List (κ × ν)) :
    OrderedMap κ ν :=
  es.foldl (fun m e => m.update e.1 new fun v => combine v e.2) m

def merge (combine : ν → ν → ν) (new : ν) (m n : OrderedMap κ ν) : OrderedMap κ ν :=
  m.takeIn combine new n.entries

variable {m n : OrderedMap κ ν} {k j : κ} {new : ν} {f g : ν → ν} {combine : ν → ν → ν}

theorem keys_update : (m.update k new f).keys = if k ∈ m.keys then m.keys else m.keys ++ [k] := by
  split
  · rename_i present
    exact keys_change_of_mem present
  · rename_i absent
    simp only [keys, update] at absent ⊢
    rw [change_of_not_mem absent, List.map_append]
    rfl

theorem get?_update_self : (m.update k new f).get? k = some (f ((m.get? k).getD new)) :=
  lookup_change_self

theorem get?_update_of_ne (different : j ≠ k) : (m.update k new f).get? j = m.get? j :=
  lookup_change_of_ne different

theorem getD_update : ((m.update k new f).get? j).getD new =
    if j = k then f ((m.get? k).getD new) else (m.get? j).getD new := by
  split
  · rename_i same
    rw [same, get?_update_self, Option.getD_some]
  · rename_i different
    rw [get?_update_of_ne different]

theorem update_eq_self {v : ν} (found : m.get? k = some v) (fixed : f v = v) :
    m.update k new f = m :=
  ext (change_eq_self found fixed)

variable (new) in
/-- A map is determined by its keys, in their order, and by the values of these. -/
theorem eq_of_getD (keys : m.keys = n.keys)
    (values : ∀ k ∈ m.keys, (m.get? k).getD new = (n.get? k).getD new) : m = n := by
  obtain ⟨es, distinct⟩ := m
  obtain ⟨ds, distinct'⟩ := n
  apply ext
  simp only [OrderedMap.keys, get?] at keys values ⊢
  induction es generalizing ds with
  | nil => exact (List.map_eq_nil_iff.mp keys.symm).symm
  | cons e es ih =>
    obtain ⟨k, v⟩ := e
    cases ds with
    | nil => contradiction
    | cons d ds =>
      obtain ⟨k', w⟩ := d
      obtain ⟨rfl, later⟩ := List.cons.inj keys
      obtain ⟨absent, distinct⟩ := List.nodup_cons.mp distinct
      have value : v = w := by simpa using values k List.mem_cons_self
      rw [value, ih distinct ds (List.nodup_cons.mp distinct').2 later]
      intro j hj
      have other : (j == k) = false := by
        have different : j ≠ k := fun same => absent (same ▸ hj)
        simpa using different
      simpa only [List.lookup_cons, other] using values j (List.mem_cons_of_mem _ hj)

theorem mem_keys_update : j ∈ (m.update k new f).keys ↔ j = k ∨ j ∈ m.keys := mem_keys_change

/-- A change at a key that is there passes through changes at other keys. -/
theorem takeIn_update {es : List (κ × ν)} (present : k ∈ m.keys) (absent : k ∉ es.map Prod.fst) :
    (m.update k new f).takeIn combine new es = (m.takeIn combine new es).update k new f := by
  induction es generalizing m with
  | nil => rfl
  | cons e rest ih =>
    simp only [List.map_cons, List.mem_cons, not_or] at absent
    have swap : (m.update k new f).update e.1 new (fun v => combine v e.2) =
        (m.update e.1 new fun v => combine v e.2).update k new f :=
      ext (change_comm present (Ne.symm absent.1))
    simp only [takeIn, List.foldl_cons, swap]
    exact ih (mem_keys_update.mpr (Or.inr present)) absent.2

section Passing

variable (neutral : ∀ v, combine v new = v) (passes : ∀ v w, combine v (f w) = f (combine v w))
include neutral passes

theorem takeIn_change {es : List (κ × ν)} (distinct : (es.map Prod.fst).Nodup) :
    m.takeIn combine new (change k new f es) = (m.takeIn combine new es).update k new f := by
  induction es generalizing m with
  | nil => simp only [takeIn, change, List.foldl_cons, List.foldl_nil, passes, neutral]
  | cons e rest ih =>
    obtain ⟨i, w⟩ := e
    obtain ⟨fresh, distinct⟩ := List.nodup_cons.mp distinct
    by_cases here : i = k
    · subst i
      have twice : m.update k new (fun v => combine v (f w)) =
          (m.update k new fun v => combine v w).update k new f := by
        apply ext
        simp only [update, change_change, passes]
      have there : k ∈ (m.update k new fun v => combine v w).keys :=
        mem_keys_update.mpr (Or.inl rfl)
      have passed : ((m.update k new fun v => combine v w).update k new f).takeIn combine new rest =
          ((m.update k new fun v => combine v w).takeIn combine new rest).update k new f :=
        takeIn_update there fresh
      simp only [change, if_true]
      rw [← twice] at passed
      exact passed
    · simp only [change, here, if_false]
      exact ih distinct

theorem merge_update :
    merge combine new m (n.update k new f) = (merge combine new m n).update k new f :=
  takeIn_change neutral passes n.distinct

end Passing

end OrderedMap

end Thompson
