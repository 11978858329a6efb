import Thompson.Text.Basic

/-!
Texts that can be told apart. A way of writing values is separable if a text that begins with a
written value tells which value it is and where it ends. What may stand behind the value is part
of that: a number ends where no digit follows. Values in a row, behind a fixed text and in lists
with a separator stay separable.
-/
namespace Thompson.Text

variable {α β : Type}

/-- Of the values in `good`, each written before a rest in `next`. -/
def Separable (good : α → Prop) (write : α → List Char) (next : List Char → Prop) : Prop :=
  ∀ ⦃x y⦄, good x → good y → ∀ ⦃r s⦄, next r → next s →
    write x ++ r = write y ++ s → x = y ∧ r = s

def AnyRest (_ : List Char) : Prop := True

def Begins (text rest : List Char) : Prop := ∃ tail, rest = text ++ tail

theorem begins_append (text tail : List Char) : Begins text (text ++ tail) := ⟨tail, rfl⟩

namespace Separable

variable {good : α → Prop} {good' : β → Prop} {write : α → List Char} {write' : β → List Char}
  {next mid : List Char → Prop}

theorem mono (h : Separable good write mid) (less : ∀ r, next r → mid r) :
    Separable good write next := by
  intro x y hx hy r s hr hs same
  exact h hx hy (less r hr) (less s hs) same

theorem behind (h : Separable good write next) (text : List Char) :
    Separable good (fun x => text ++ write x) next := by
  intro x y hx hy r s hr hs same
  simp only [List.append_assoc] at same
  exact h hx hy hr hs (List.append_cancel_left same)

theorem closedBy {text : List Char} (h : Separable good write (Begins text)) :
    Separable good (fun x => write x ++ text) AnyRest := by
  intro x y hx hy r s _ _ same
  simp only [List.append_assoc] at same
  obtain ⟨value, rest⟩ := h hx hy (begins_append text r) (begins_append text s) same
  exact ⟨value, List.append_cancel_left rest⟩

theorem pair (first : Separable good write mid) (second : Separable good' write' next)
    (between : ∀ y, good' y → ∀ r, next r → mid (write' y ++ r)) :
    Separable (fun p : α × β => good p.1 ∧ good' p.2) (fun p => write p.1 ++ write' p.2) next := by
  rintro ⟨x, y⟩ ⟨x', y'⟩ ⟨hx, hy⟩ ⟨hx', hy'⟩ r s hr hs same
  simp only [List.append_assoc] at same
  obtain ⟨rfl, tails⟩ := first hx hx' (between y hy r hr) (between y' hy' s hs) same
  obtain ⟨rfl, rests⟩ := second hy hy' hr hs tails
  exact ⟨rfl, rests⟩

theorem comap {f : β → α} (h : Separable good write next)
    (fits : ∀ x, good' x → good (f x))
    (apart : ∀ x y, good' x → good' y → f x = f y → x = y) :
    Separable good' (fun x => write (f x)) next := by
  intro x y hx hy r s hr hs same
  obtain ⟨value, rest⟩ := h (fits x hx) (fits y hy) hr hs same
  exact ⟨apart x y hx hy value, rest⟩

theorem char : Separable (fun _ => True) (fun c : Char => [c]) AnyRest := by
  intro c d _ _ r s _ _ same
  exact List.cons.inj same

section Joined

variable {separator : List Char}

def further (separator : List Char) (write : α → List Char) (xs : List α) : List Char :=
  xs.flatMap fun x => separator ++ write x

theorem further_cons (x : α) (xs : List α) : further separator write (x :: xs) =
    separator ++ (write x ++ further separator write xs) := by
  simp [further]

theorem intercalate_map_cons (x : α) (xs : List α) :
    separator.intercalate ((x :: xs).map write) = write x ++ further separator write xs := by
  induction xs generalizing x with
  | nil => simp [further]
  | cons y ys ih =>
    rw [List.map_cons, List.map_cons, List.intercalate_cons_cons, ← List.map_cons, ih y,
      further_cons, List.append_assoc]

theorem begins_further_or (xs : List α) {r : List Char} (rest : next r) :
    Begins separator (further separator write xs ++ r) ∨ next (further separator write xs ++ r) := by
  cases xs with
  | nil => exact Or.inr rest
  | cons x xs =>
    rw [further_cons, List.append_assoc]
    exact Or.inl (begins_append separator _)

variable (item : Separable good write fun r => Begins separator r ∨ next r)
  (apart : ∀ r, next r → ¬Begins separator r)
include item apart

theorem further_inj {xs ys : List α} (goodXs : ∀ x ∈ xs, good x) (goodYs : ∀ y ∈ ys, good y)
    {r s : List Char} (hr : next r) (hs : next s)
    (same : further separator write xs ++ r = further separator write ys ++ s) :
    xs = ys ∧ r = s := by
  induction xs generalizing ys with
  | nil =>
    cases ys with
    | nil => exact ⟨rfl, same⟩
    | cons y ys =>
      rw [further_cons, List.append_assoc] at same
      exact absurd ⟨_, same⟩ (apart r hr)
  | cons x xs ih =>
    cases ys with
    | nil =>
      rw [further_cons, List.append_assoc] at same
      exact absurd ⟨_, same.symm⟩ (apart s hs)
    | cons y ys =>
      simp only [further_cons, List.append_assoc] at same
      obtain ⟨rfl, tails⟩ := item (goodXs x List.mem_cons_self) (goodYs y List.mem_cons_self)
        (begins_further_or xs hr) (begins_further_or ys hs) (List.append_cancel_left same)
      obtain ⟨rfl, rests⟩ := ih (fun z hz => goodXs z (List.mem_cons_of_mem x hz))
        (fun z hz => goodYs z (List.mem_cons_of_mem x hz)) tails
      exact ⟨rfl, rests⟩

/-- The values of a list that is not empty, with a separator between them: what stands behind an
    item tells whether another one follows. -/
theorem joined : Separable (fun xs => xs ≠ [] ∧ ∀ x ∈ xs, good x)
    (fun xs => separator.intercalate (xs.map write)) next := by
  rintro xs ys ⟨someXs, goodXs⟩ ⟨someYs, goodYs⟩ r s hr hs same
  obtain ⟨x, xs, rfl⟩ := List.exists_cons_of_ne_nil someXs
  obtain ⟨y, ys, rfl⟩ := List.exists_cons_of_ne_nil someYs
  simp only [intercalate_map_cons, List.append_assoc] at same
  obtain ⟨rfl, tails⟩ := item (goodXs x List.mem_cons_self) (goodYs y List.mem_cons_self)
    (begins_further_or xs hr) (begins_further_or ys hs) same
  obtain ⟨rfl, rests⟩ := further_inj item apart (fun z hz => goodXs z (List.mem_cons_of_mem x hz))
    (fun z hz => goodYs z (List.mem_cons_of_mem x hz)) hr hs tails
  exact ⟨rfl, rests⟩

end Joined

theorem orNothing {writeAll : List α → List Char}
    (some : Separable (fun xs => xs ≠ [] ∧ ∀ x ∈ xs, good x) writeAll next)
    (apart : ∀ x xs r s, good x → next r → next s → writeAll [] ++ r ≠ writeAll (x :: xs) ++ s) :
    Separable (fun xs => ∀ x ∈ xs, good x) writeAll next := by
  intro xs ys goodXs goodYs r s hr hs same
  cases xs with
  | nil =>
    cases ys with
    | nil => exact ⟨rfl, List.append_cancel_left same⟩
    | cons y ys => exact absurd same (apart y ys r s (goodYs y List.mem_cons_self) hr hs)
  | cons x xs =>
    cases ys with
    | nil => exact absurd same.symm (apart x xs s r (goodXs x List.mem_cons_self) hs hr)
    | cons y ys => exact some ⟨List.cons_ne_nil x xs, goodXs⟩ ⟨List.cons_ne_nil y ys, goodYs⟩ hr hs same

/-- Values in a row up to a rest that no value begins with. -/
theorem upTo (item : Separable good write AnyRest)
    (apart : ∀ x r s, good x → next s → write x ++ r ≠ s) :
    Separable (fun xs : List α => ∀ x ∈ xs, good x) (fun xs => xs.flatMap write) next := by
  intro xs ys goodXs goodYs r s hr hs same
  induction xs generalizing ys with
  | nil =>
    cases ys with
    | nil => exact ⟨rfl, same⟩
    | cons y ys =>
      simp only [List.flatMap_cons, List.flatMap_nil, List.nil_append, List.append_assoc] at same
      exact absurd same.symm (apart y _ r (goodYs y List.mem_cons_self) hr)
  | cons x xs ih =>
    cases ys with
    | nil =>
      simp only [List.flatMap_cons, List.flatMap_nil, List.nil_append, List.append_assoc] at same
      exact absurd same (apart x _ s (goodXs x List.mem_cons_self) hs)
    | cons y ys =>
      simp only [List.flatMap_cons, List.append_assoc] at same
      obtain ⟨rfl, tails⟩ := item (goodXs x List.mem_cons_self) (goodYs y List.mem_cons_self)
        trivial trivial same
      obtain ⟨rfl, rests⟩ := ih (fun z hz => goodXs z (List.mem_cons_of_mem x hz))
        (fun z hz => goodYs z (List.mem_cons_of_mem x hz)) tails
      exact ⟨rfl, rests⟩

theorem rows (item : Separable good write AnyRest) (visible : ∀ x, write x ≠ []) {xs ys : List α}
    (goodXs : ∀ x ∈ xs, good x) (goodYs : ∀ y ∈ ys, good y)
    (same : xs.flatMap write = ys.flatMap write) : xs = ys := by
  have ended : Separable (fun xs : List α => ∀ x ∈ xs, good x) (fun xs => xs.flatMap write)
      (· = []) := by
    apply item.upTo
    rintro x r _ _ rfl nothing
    exact visible x (List.append_eq_nil_iff.mp nothing).1
  exact (ended goodXs goodYs rfl rfl (congrArg (· ++ []) same)).1

end Separable

def NoDigit (rest : List Char) : Prop := ∀ c ∈ rest.head?, c.isDigit = false

theorem takeWhile_digits (n : Nat) {rest : List Char} (ends : NoDigit rest) :
    (Nat.toDigits 10 n ++ rest).takeWhile Char.isDigit = Nat.toDigits 10 n := by
  have digits : ∀ c ∈ Nat.toDigits 10 n, c.isDigit = true :=
    fun c hc => Nat.isDigit_of_mem_toDigits (by decide) (by decide) hc
  have stops : rest.takeWhile Char.isDigit = [] := by
    cases rest with
    | nil => rfl
    | cons c rest => simp [ends c rfl]
  rw [List.takeWhile_append_of_pos digits, stops, List.append_nil]

theorem separable_digits : Separable (fun _ => True) (Nat.toDigits 10) NoDigit := by
  intro m n _ _ r s hr hs same
  have digits : Nat.toDigits 10 m = Nat.toDigits 10 n := by
    rw [← takeWhile_digits m hr, same, takeWhile_digits n hs]
  have value : some m = some n := by
    rw [← decimal?_toDigits m, digits, decimal?_toDigits n]
  rw [digits] at same
  exact ⟨Option.some.inj value, List.append_cancel_left same⟩

end Thompson.Text
