import Thompson.Proofs.Pattern.Reading

/-!
The grammar is unambiguous: a pattern has one derivation. A reader that builds syntax trees
builds the same tree from the same text, and the tree of a derivation tells which rules
were used.
-/
namespace Thompson

inductive SyntaxTree where
  | empty
  | primitive (c : Char)
  | concatenate (first second : SyntaxTree)
  | union (first second : SyntaxTree)
  | repetition (operand : SyntaxTree)
  | stamp (operand : SyntaxTree)

def syntaxTrees : Construction Unit SyntaxTree Unit where
  empty _ := (.empty, ())
  primitive c _ := (.primitive c, ())
  concatenate := .concatenate
  union first second _ := (.union first second, ())
  repetition operand _ := (.repetition operand, ())
  stamp := .stamp
  describe _ := ()

namespace Derivation

def tree {rule : Rule} (d : Derivation rule) : SyntaxTree := (d.build syntaxTrees ()).1

section Heads

variable {x : SyntaxTree}

theorem tree_regex (r : Derivation .regex) :
    (∃ x, r.tree = .stamp x) ∨ ∃ x y, r.tree = .union x y := by
  cases r with
  | last t => exact Or.inl ⟨_, rfl⟩
  | bar t r => exact Or.inr ⟨_, _, rfl⟩

theorem tree_base_ne_repetition (b : Derivation .base) : b.tree ≠ .repetition x := by
  cases b with
  | group r =>
    have same : (group r).tree = r.tree := rfl
    rcases tree_regex r with ⟨y, head⟩ | ⟨y, z, head⟩
    · simp [same, head]
    · simp [same, head]
  | letter c symbol => exact SyntaxTree.noConfusion
  | mark => exact SyntaxTree.noConfusion

theorem tree_group_ne_primitive (r : Derivation .regex) (c : Char) :
    (group r).tree ≠ .primitive c := by
  have same : (group r).tree = r.tree := rfl
  rcases tree_regex r with ⟨y, head⟩ | ⟨y, z, head⟩
  · simp [same, head]
  · simp [same, head]

end Heads

theorem eq_of_tree_eq {rule : Rule} (d e : Derivation rule) (same : d.tree = e.tree) : d = e := by
  induction d with
  | last t ih =>
    cases e with
    | last u => exact congrArg last (ih u (SyntaxTree.stamp.inj same))
    | bar u q => exact absurd same SyntaxTree.noConfusion
  | bar t r iht ihr =>
    cases e with
    | last u => exact absurd same SyntaxTree.noConfusion
    | bar u q =>
      obtain ⟨left, right⟩ := SyntaxTree.union.inj same
      rw [iht u (SyntaxTree.stamp.inj left), ihr q right]
  | nothing =>
    cases e with
    | nothing => rfl
    | more u g => exact absurd same SyntaxTree.noConfusion
  | more t f iht ihf =>
    cases e with
    | nothing => exact absurd same SyntaxTree.noConfusion
    | more u g =>
      obtain ⟨left, right⟩ := SyntaxTree.concatenate.inj same
      rw [iht u left, ihf g right]
  | once b ih =>
    cases e with
    | once a => exact congrArg once (ih a same)
    | star g => exact absurd same (tree_base_ne_repetition b)
  | star f ih =>
    cases e with
    | once a => exact absurd same.symm (tree_base_ne_repetition a)
    | star g => exact congrArg star (ih g (SyntaxTree.repetition.inj same))
  | group r ih =>
    cases e with
    | group q => exact congrArg group (ih q same)
    | letter c symbol => exact absurd same (tree_group_ne_primitive r c)
    | mark => exact absurd same (tree_group_ne_primitive r emptyMark)
  | letter c symbol =>
    cases e with
    | group q => exact absurd same.symm (tree_group_ne_primitive q c)
    | letter d symbol' =>
      obtain rfl := SyntaxTree.primitive.inj same
      rfl
    | mark => exact absurd (SyntaxTree.primitive.inj same) (ne_emptyMark_of_isSymbol symbol)
  | mark =>
    cases e with
    | group q => exact absurd same.symm (tree_group_ne_primitive q emptyMark)
    | letter d symbol =>
      exact absurd (SyntaxTree.primitive.inj same).symm (ne_emptyMark_of_isSymbol symbol)
    | mark => rfl

theorem eq_of_text_eq (d e : Derivation .regex) (same : d.text = e.text) : d = e := by
  have first := Reader.read_derivation syntaxTrees () d (.unlimited d.depth)
  have second := Reader.read_derivation syntaxTrees () e (.unlimited e.depth)
  rw [same, second] at first
  exact eq_of_tree_eq d e (Except.ok.inj first).symm

end Derivation

end Thompson
