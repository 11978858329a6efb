import Mathlib.Computability.Language
import Thompson.Automaton.Simulation
import Thompson.Pattern.Construction

/-!
The grammar of patterns, as trees. A derivation of a rule spells a text, and a
construction builds a value along it: operands in the order in which they stand,
each operation after its operands. A pattern is a text that some derivation spells.
-/
namespace Thompson

/-- How a rule of the grammar derives a text. -/
inductive Derivation : Rule → Type where
  | last (t : Derivation .term) : Derivation .regex
  | bar (t : Derivation .term) (r : Derivation .regex) : Derivation .regex
  | nothing : Derivation .term
  | more (t : Derivation .term) (f : Derivation .factor) : Derivation .term
  | once (b : Derivation .base) : Derivation .factor
  | star (f : Derivation .factor) : Derivation .factor
  | group (r : Derivation .regex) : Derivation .base
  | letter (c : Char) (symbol : isSymbol c = true) : Derivation .base
  | mark : Derivation .base

namespace Derivation

variable {rule : Rule} {σ α β : Type}

def text {rule : Rule} : Derivation rule → List Char
  | last t => t.text
  | bar t r => t.text ++ '|' :: r.text
  | nothing => []
  | more t f => t.text ++ f.text
  | once b => b.text
  | star f => f.text ++ ['*']
  | group r => '(' :: r.text ++ [')']
  | letter c _ => [c]
  | mark => [emptyMark]

/-- How many groups stand inside each other at most. -/
def depth {rule : Rule} : Derivation rule → Nat
  | last t => t.depth
  | bar t r => max t.depth r.depth
  | nothing => 0
  | more t f => max t.depth f.depth
  | once b => b.depth
  | star f => f.depth
  | group r => r.depth + 1
  | letter .. => 0
  | mark => 0

def build (K : Construction σ α β) {rule : Rule} : Derivation rule → σ → α × σ
  | last t, s =>
    let (x, s) := t.build K s
    (K.stamp x, s)
  | bar t r, s =>
    let (x, s) := t.build K s
    let (y, s) := r.build K s
    K.union (K.stamp x) y s
  | nothing, s => K.empty s
  | more t f, s =>
    let (x, s) := t.build K s
    let (y, s) := f.build K s
    (K.concatenate x y, s)
  | once b, s => b.build K s
  | star f, s =>
    let (x, s) := f.build K s
    K.repetition x s
  | group r, s => r.build K s
  | letter c _, s => K.primitive c s
  | mark, s => K.primitive emptyMark s

end Derivation

def Derivable (text : List Char) : Prop := ∃ d : Derivation .regex, d.text = text

/-- The empty text is a pattern: one term without a factor. -/
theorem derivable_nil : Derivable [] := ⟨.last .nothing, rfl⟩

theorem Derivable.group {text : List Char} (h : Derivable text) : Derivable ('(' :: text ++ [')']) := by
  obtain ⟨d, rfl⟩ := h
  exact ⟨.last (.more .nothing (.once (.group d))), rfl⟩

/-!
What patterns mean: sets of texts. A letter means itself, the mark of the empty text
and the empty term mean the empty text, a bar means union, juxtaposition means
concatenation and a star means repetition. These operations form a construction, so
that languages are built along a derivation as automata are.
-/

open Computability

def Automaton.language (A : Automaton) : Language Char := {w | A.accepts w = true}

def Derivation.language {rule : Rule} : Derivation rule → Language Char
  | .last t => t.language
  | .bar t r => t.language + r.language
  | .nothing => 1
  | .more t f => t.language * f.language
  | .once b => b.language
  | .star f => f.language∗
  | .group r => r.language
  | .letter c _ => {[c]}
  | .mark => 1

/-- The operations on languages; they need no names and leave nothing to tell. -/
def languages : Construction Unit (Language Char) Unit where
  empty _ := (1, ())
  primitive c _ := (if c = emptyMark then 1 else {[c]}, ())
  concatenate L M := L * M
  union L M _ := (L + M, ())
  repetition L _ := (L∗, ())
  stamp := id
  describe _ := ()

theorem Derivation.build_languages {rule : Rule} (d : Derivation rule) :
    d.build languages () = (d.language, ()) := by
  induction d with
  | nothing => rfl
  | mark => simp [build, language, languages]
  | letter c symbol =>
    simp [build, language, languages, ne_emptyMark_of_isSymbol symbol]
  | last t ih => simp only [build, ih]; rfl
  | once b ih => simp only [build, ih]; rfl
  | star f ih => simp only [build, ih]; rfl
  | group r ih => simp only [build, ih]; rfl
  | bar t r iht ihr => simp only [build, iht, ihr]; rfl
  | more t f iht ihf => simp only [build, iht, ihf]; rfl

end Thompson
