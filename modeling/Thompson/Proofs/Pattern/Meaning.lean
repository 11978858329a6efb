import Thompson.Proofs.Pattern.Correctness
import Thompson.Proofs.Pattern.Replacing

/-!
What a text means, read without automata. A reader that builds languages finds the language of
a pattern, and none for a text that is no pattern; as long as names last, that language is what
the automaton of the pattern accepts. So what holds of meanings holds of automata, however
their states are numbered.
-/
namespace Thompson

variable {text : List Char} {L : Language Char} {p q : String}

def meaning? (text : List Char) : Option (Language Char) :=
  (Reader.read languages none () text).outcome.toOption

theorem meaning?_eq_some_iff :
    meaning? text = some L ↔ ∃ d : Derivation .regex, d.text = text ∧ d.language = L := by
  have built (d : Derivation .regex) : (d.build languages ()).1 = d.language := by
    rw [d.build_languages]
  constructor
  · intro found
    cases outcome : (Reader.read languages none () text).outcome with
    | error e =>
      rw [meaning?, outcome] at found
      contradiction
    | ok M =>
      rw [meaning?, outcome] at found
      cases found
      obtain ⟨d, spelled, _, value⟩ := Reader.read_eq_ok_iff.mp outcome
      exact ⟨d, spelled, (built d).symm.trans value⟩
  · rintro ⟨d, rfl, rfl⟩
    rw [meaning?, Reader.read_derivation languages () d (.unlimited d.depth), built]
    rfl

theorem meaning?_text (d : Derivation .regex) : meaning? d.text = some d.language :=
  meaning?_eq_some_iff.mpr ⟨d, rfl, rfl⟩

theorem exists_automaton_iff : (∃ A, compile none p = .ok A) ↔ Derivable p.toList :=
  Reader.read_ok_iff_derivable _

theorem derivable_iff_meaning : Derivable text ↔ ∃ L, meaning? text = some L := by
  constructor
  · intro ⟨d, spelled⟩
    exact ⟨d.language, meaning?_eq_some_iff.mpr ⟨d, spelled, rfl⟩⟩
  · intro ⟨L, found⟩
    obtain ⟨d, spelled, _⟩ := meaning?_eq_some_iff.mp found
    exact ⟨d, spelled⟩

/-- While names last the automaton accepts what the pattern means. -/
theorem meaning?_of_compile {A : Automaton} (short : p.utf8ByteSize ≤ longestPattern)
    (success : compile none p = .ok A) : meaning? p.toList = some A.language := by
  obtain ⟨d, spelled, room, built⟩ := exists_build_of_compile short success
  refine meaning?_eq_some_iff.mpr ⟨d, spelled, ?_⟩
  ext w
  rw [← (d.faithful room).recognizes w, built]
  exact Automaton.accepts_iff_recognizes.symm

/-- The text is a pattern, and while names last its automaton accepts the inputs in `L` and no
    others. -/
def Denotes (p : String) (L : Language Char) : Prop :=
  ∃ A, compile none p = .ok A ∧ (p.utf8ByteSize ≤ longestPattern → A.language = L)

/-- The derivation spells the pattern, and while names last for it `L` is its language. -/
structure Derivation.Spells (r : Derivation .regex) (p : String) (L : Language Char) : Prop where
  text_eq : r.text = p.toList
  language_eq : p.utf8ByteSize ≤ longestPattern → r.language = L

theorem exists_spells {A : Automaton} (success : compile none p = .ok A) :
    ∃ r : Derivation .regex, r.Spells p A.language := by
  obtain ⟨r, spelled⟩ := exists_automaton_iff.mp ⟨A, success⟩
  refine ⟨r, spelled, ?_⟩
  intro short
  have found := meaning?_of_compile short success
  rw [← spelled, meaning?_text] at found
  exact Option.some.inj found

theorem Derivation.Spells.denotes {r : Derivation .regex} (spells : r.Spells p L) :
    Denotes p L := by
  obtain ⟨A, success⟩ := exists_automaton_iff.mpr ⟨r, spells.text_eq⟩
  refine ⟨A, success, ?_⟩
  intro short
  have accepted := meaning?_of_compile short success
  rw [← spells.text_eq, meaning?_text] at accepted
  rw [← spells.language_eq short]
  exact (Option.some.inj accepted).symm

/-- Both texts are patterns or neither is; and while names last, the automata of both accept the
    same inputs. -/
def Agree (p q : String) : Prop :=
  ((∃ A, compile none p = .ok A) ↔ ∃ B, compile none q = .ok B) ∧
    (p.utf8ByteSize ≤ longestPattern → q.utf8ByteSize ≤ longestPattern →
      ∀ A B, compile none p = .ok A → compile none q = .ok B → A.language = B.language)

theorem Agree.of_meaning (same : meaning? p.toList = meaning? q.toList) : Agree p q := by
  constructor
  · rw [exists_automaton_iff, exists_automaton_iff, derivable_iff_meaning, derivable_iff_meaning,
      same]
  · intro shortP shortQ A B first second
    have left := meaning?_of_compile shortP first
    have right := meaning?_of_compile shortQ second
    rw [left, right] at same
    exact Option.some.inj same

theorem Reader.interchangeable_factors {f g : Derivation .factor} (same : f.language = g.language) :
    Interchangeable languages none f.text g.text := by
  apply Interchangeable.of_factors
  intro s
  rw [f.build_languages, g.build_languages, same]

theorem Agree.in_context {s t : String} (h : Reader.Interchangeable languages none s.toList t.toList)
    (u v : String) : Agree (u ++ s ++ v) (u ++ t ++ v) := by
  apply Agree.of_meaning
  simp only [String.toList_append]
  exact ((h.append_left u.toList).append_right v.toList).outcome ()

end Thompson
