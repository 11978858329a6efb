import Mathlib.Data.String.Basic
import Thompson.Pattern.Grammar
import Thompson.Proofs.Pattern.Step

/-!
Derivations put together. Two alternations in a row make one, in which the last branch of
the first and the first branch of the second are one branch; with a bar between them they
keep their branches. Neither way do groups nest deeper than before.
-/
namespace Thompson

namespace Derivation

def appendTerm (t : Derivation .term) : Derivation .term → Derivation .term
  | .nothing => t
  | .more u f => .more (t.appendTerm u) f

theorem text_appendTerm (t : Derivation .term) :
    (u : Derivation .term) → (t.appendTerm u).text = t.text ++ u.text
  | .nothing => by simp only [appendTerm, text, List.append_nil]
  | .more u f => by
    simp only [appendTerm, text, text_appendTerm t u, List.append_assoc]

theorem depth_appendTerm (t : Derivation .term) :
    (u : Derivation .term) → (t.appendTerm u).depth = max t.depth u.depth
  | .nothing => by simp only [appendTerm, depth, Nat.max_zero]
  | .more u f => by
    simp only [appendTerm, depth, depth_appendTerm t u]
    omega

def append : Derivation .regex → Derivation .regex → Derivation .regex
  | .last t, .last u => .last (t.appendTerm u)
  | .last t, .bar u q => .bar (t.appendTerm u) q
  | .bar t r, q => .bar t (r.append q)

theorem text_append : (r q : Derivation .regex) → (r.append q).text = r.text ++ q.text
  | .last t, .last u => by simp only [append, text, text_appendTerm]
  | .last t, .bar u q => by
    simp only [append, text, text_appendTerm, List.append_assoc]
  | .bar t r, q => by
    simp only [append, text, text_append r q, List.append_assoc, List.cons_append]

theorem depth_append : (r q : Derivation .regex) → (r.append q).depth = max r.depth q.depth
  | .last t, .last u => by simp only [append, depth, depth_appendTerm]
  | .last t, .bar u q => by
    simp only [append, depth, depth_appendTerm]
    omega
  | .bar t r, q => by
    simp only [append, depth, depth_append r q]
    omega

def alternate : Derivation .regex → Derivation .regex → Derivation .regex
  | .last t, q => .bar t q
  | .bar t r, q => .bar t (r.alternate q)

theorem text_alternate : (r q : Derivation .regex) → (r.alternate q).text = r.text ++ '|' :: q.text
  | .last t, q => by simp only [alternate, text]
  | .bar t r, q => by
    simp only [alternate, text, text_alternate r q, List.append_assoc, List.cons_append]

theorem depth_alternate : (r q : Derivation .regex) → (r.alternate q).depth = max r.depth q.depth
  | .last t, q => by simp only [alternate, depth]
  | .bar t r, q => by
    simp only [alternate, depth, depth_alternate r q]
    omega

end Derivation

namespace Derivable

variable {u v : List Char}

theorem append (first : Derivable u) (second : Derivable v) : Derivable (u ++ v) := by
  obtain ⟨r, rfl⟩ := first
  obtain ⟨q, rfl⟩ := second
  exact ⟨r.append q, Derivation.text_append r q⟩

theorem append_bar (first : Derivable u) (second : Derivable v) : Derivable (u ++ '|' :: v) := by
  obtain ⟨r, rfl⟩ := first
  obtain ⟨q, rfl⟩ := second
  exact ⟨r.alternate q, Derivation.text_alternate r q⟩

theorem append_factor (h : Derivable u) (f : Derivation .factor) : Derivable (u ++ f.text) :=
  h.append ⟨.last (.more .nothing f), rfl⟩

end Derivable

end Thompson

/-!
The reader follows every derivation. Started anywhere, on a text that a rule derives, it
reads the text and builds the value of the derivation, if the limit allows the depth of the
derivation inside the groups that are open. A term and an alternation are not complete when
their text ends: the one may grow, and the branches of the other are joined later. So what
is said of them is what completing them would give.
-/
namespace Thompson.Reader

open String (utf8Len)

variable {σ α β : Type} {K : Construction σ α β} {limit : Option Nat}

def Allows (limit : Option Nat) (depth : Nat) : Prop := ∀ n ∈ limit, depth ≤ n

theorem Allows.unlimited (n : Nat) : Allows none n := by
  intro k limited
  contradiction

theorem Allows.mono {m n : Nat} (h : Allows limit n) (less : m ≤ n) : Allows limit m := by
  intro k limited
  have := h k limited
  omega

/-- A branch of the alternation around a place begins there, with the branches `done` before
    it and the supply `s`. -/
def Begins (K : Construction σ α β) (cfg : Config σ α) (done : List α) (s : σ) : Prop :=
  settled K cfg = (⟨done, (K.empty s).1⟩, (K.empty s).2)

theorem Begins.branch (offset : Nat) (groups : List (Group α)) (done : List α) (s : σ) :
    Begins K ⟨offset, (K.empty s).2, groups, .term ⟨done, (K.empty s).1⟩⟩ done s := rfl

theorem Begins.group (offset : Nat) (groups : List (Group α)) (s : σ) :
    Begins K ⟨offset, s, groups, .opened⟩ [] s := rfl

/-- From `cfg` over a text to `next`, in the same group, where the branch has come to `term`. -/
structure Reaches (K : Construction σ α β) (cfg next : Config σ α) (text : List Char)
    (done : List α) (term : α) (s : σ) : Prop where
  offset : next.offset = cfg.offset + utf8Len text
  groups : next.groups = cfg.groups
  focus : cfg.focus ≠ .opened → next.focus ≠ .opened
  settled : settled K next = (⟨done, term⟩, s)

def Reads (K : Construction σ α β) (limit : Option Nat) : {rule : Rule} → Derivation rule → Prop
  | .regex, r => ∀ cfg done s, Begins K cfg done s → Allows limit (cfg.groups.length + r.depth) →
      ∃ next branches term s', after K limit cfg r.text = .ok next ∧
        Reaches K cfg next r.text branches term s' ∧
        ∀ offset, (unite K offset s' branches (K.stamp term)).2 =
          (unite K offset (r.build K s).2 done (r.build K s).1).2
  | .term, t => ∀ cfg done s, Begins K cfg done s → Allows limit (cfg.groups.length + t.depth) →
      ∃ next, after K limit cfg t.text = .ok next ∧
        Reaches K cfg next t.text done (t.build K s).1 (t.build K s).2
  | .factor, f | .base, f => ∀ cfg, Allows limit (cfg.groups.length + f.depth) →
      after K limit cfg f.text = .ok ⟨cfg.offset + utf8Len f.text,
        (f.build K (settled K cfg).2).2, cfg.groups,
        .factor (settled K cfg).1 (f.build K (settled K cfg).2).1⟩

theorem reads_nothing : Reads K limit .nothing := by
  intro cfg done s begins _
  exact ⟨cfg, after_nil, rfl, rfl, id, begins⟩

theorem reads_more {t : Derivation .term} {f : Derivation .factor} (first : Reads K limit t)
    (second : Reads K limit f) : Reads K limit (.more t f) := by
  intro cfg done s begins allowed
  simp only [Derivation.depth] at allowed
  obtain ⟨middle, leads, reached⟩ := first cfg done s begins (allowed.mono (by omega))
  have rest := second middle (allowed.mono (by rw [reached.groups]; omega))
  refine ⟨_, (after_append_of_ok leads).trans rest, ?_, reached.groups, ?_, ?_⟩
  · simp only [Derivation.text, String.utf8Len_append, reached.offset]
    omega
  · intro _ opened
    contradiction
  · rw [reached.settled]
    rfl

theorem reads_once {b : Derivation .base} (base : Reads K limit b) : Reads K limit (.once b) :=
  base

theorem reads_repeated {f : Derivation .factor} (factor : Reads K limit f) :
    Reads K limit (.star f) := by
  intro cfg allowed
  simp only [Derivation.text]
  rw [after_append_of_ok (factor cfg allowed), after_singleton, step_star]
  simp only [Derivation.build, String.utf8Len_append, String.utf8Len_cons, String.utf8Len_nil,
    Nat.zero_add, Nat.add_assoc]

theorem reads_letter {c : Char} (symbol : isSymbol c = true) :
    Reads K limit (.letter c symbol) := by
  intro cfg _
  simp only [Derivation.text]
  rw [after_singleton, step_literal (Or.inl symbol)]
  simp only [Derivation.build, String.utf8Len_cons, String.utf8Len_nil, Nat.zero_add]

theorem reads_mark : Reads K limit .mark := by
  intro cfg _
  simp only [Derivation.text]
  rw [after_singleton, step_literal (Or.inr rfl)]
  simp only [Derivation.build, String.utf8Len_cons, String.utf8Len_nil, Nat.zero_add]

theorem reads_last {t : Derivation .term} (term : Reads K limit t) : Reads K limit (.last t) := by
  intro cfg done s begins allowed
  obtain ⟨next, leads, reached⟩ := term cfg done s begins allowed
  exact ⟨next, done, _, _, leads, reached, fun _ => rfl⟩

theorem reads_bar {t : Derivation .term} {r : Derivation .regex} (first : Reads K limit t)
    (second : Reads K limit r) : Reads K limit (.bar t r) := by
  intro cfg done s begins allowed
  simp only [Derivation.depth] at allowed
  obtain ⟨middle, leads, reached⟩ := first cfg done s begins (allowed.mono (by omega))
  have barred := step_bar K limit middle
  rw [reached.settled] at barred
  obtain ⟨next, branches, term, s', rest, found, joined⟩ := second _ _ _
    (.branch (middle.offset + '|'.utf8Size) middle.groups (K.stamp (t.build K s).1 :: done)
      (t.build K s).2)
    (allowed.mono (by simp only [reached.groups]; omega))
  refine ⟨next, branches, term, s', ?_, ?_, ?_⟩
  · exact (after_append_of_ok leads).trans ((after_cons_of_ok barred).trans rest)
  · refine ⟨?_, found.groups.trans reached.groups, ?_, found.settled⟩
    · rw [found.offset]
      simp only [Derivation.text, String.utf8Len_append, String.utf8Len_cons, reached.offset]
      omega
    · intro _
      exact found.focus (by simp)
  · intro offset
    rw [joined offset]
    rfl

theorem reads_group {r : Derivation .regex} (inner : Reads K limit r) :
    Reads K limit (.group r) := by
  intro cfg allowed
  simp only [Derivation.depth] at allowed
  have shallow : ∀ n ∈ limit, cfg.groups.length < n := by
    intro n limited
    have := allowed n limited
    omega
  have opened := step_open K shallow
  obtain ⟨next, branches, term, s', leads, reached, joined⟩ := inner _ _ _
    (.group (cfg.offset + '('.utf8Size) (⟨cfg.offset, (settled K cfg).1⟩ :: cfg.groups)
      (settled K cfg).2)
    (allowed.mono (by simp only [List.length_cons]; omega))
  have closing := step_close K limit reached.groups
  rw [closed_of_settled reached.settled, joined] at closing
  simp only [Derivation.text, List.cons_append]
  rw [after_cons_of_ok opened, after_append_of_ok leads, after_singleton, closing, reached.offset]
  simp only [unite, Derivation.build, String.utf8Len_append, String.utf8Len_cons,
    String.utf8Len_nil, Nat.zero_add]
  congr 2
  omega

/-- By the rules of the grammar: every derivation is read. -/
theorem reads (K : Construction σ α β) (limit : Option Nat) {rule : Rule} (d : Derivation rule) :
    Reads K limit d := by
  induction d with
  | last t term => exact reads_last term
  | bar t r first second => exact reads_bar first second
  | nothing => exact reads_nothing
  | more t f first second => exact reads_more first second
  | once b base => exact reads_once base
  | star f factor => exact reads_repeated factor
  | group r inner => exact reads_group inner
  | letter c symbol => exact reads_letter symbol
  | mark => exact reads_mark

/-- A pattern is read as its derivation says, if the limit allows its depth. -/
theorem read_derivation (K : Construction σ α β) (s : σ) (d : Derivation .regex)
    (allowed : Allows limit d.depth) :
    (read K limit s d.text).outcome = .ok (d.build K s).1 := by
  obtain ⟨last, branches, term, s', leads, reached, joined⟩ :=
    reads K limit d (origin K s) [] s (.branch 0 [] [] s)
      (allowed.mono (by simp [origin_eq]))
  have focus : last.focus ≠ .opened := reached.focus (by simp [origin_eq])
  rw [outcome_of_ok leads, finish_of_nil focus reached.groups,
    closed_of_settled reached.settled, joined]
  rfl

end Thompson.Reader
