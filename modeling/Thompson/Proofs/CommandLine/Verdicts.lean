import Thompson.Proofs.CommandLine.Sources
import Thompson.Proofs.Text.Quoting

/-!
What a run over inputs prints. Every verdict has one line, which quotes its input, so the lines of
two lists of verdicts differ wherever the lists do. From the text as from the JSON form one gets back
what the automaton says about each of the inputs, in the order of the words that give them.
-/
namespace Thompson

open Text (Separable AnyRest quoted isUnprintable)

namespace Verdict

def row (v : Verdict) : List Char :=
  (if v.accepted then "accept " else "reject ").toList ++ (quoted v.input).toList

end Verdict

section Runs

variable {words : List String} {s : Settings} {inline : Option String} {format : Format}
  {verbosity : Verbosity} {inputs operands : List String} {w : Surroundings} {p : LoadedPattern}
  {A : Automaton}

theorem Given.row_eq_operands {g : Given} (pattern : g.pattern = operands.head?)
    (inputs : g.inputs = operands.tail) : g.row = operands := by
  rw [Given.row, pattern, inputs]
  cases operands <;> rfl

theorem Gives.sublist (gives : Gives true words s operands format verbosity) :
    operands.Sublist words := by
  obtain ⟨g, read, pattern, inputs, _⟩ := gives
  obtain ⟨taken, among, whole⟩ := Given.row_words (fun _ => rfl) read
  rw [← Given.row_eq_operands pattern inputs, whole]
  exact among

end Runs

end Thompson
