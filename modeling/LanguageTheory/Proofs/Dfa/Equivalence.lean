import LanguageTheory.Proofs.Dfa.Minimization

/-!
# Deciding whether two automata accept the same words

Read over a common alphabet, two automata keep their words and have the same characters, so they
have the same minimal automaton exactly when they accept the same words. A character of one alphabet
only is one that the other automaton has no transitions for.
-/

namespace LanguageTheory.Dfa

variable {d e : Dfa} {a : Alphabet}

/-! ### Comparing minimal automata -/

/-- Over an alphabet with the characters of both, two automata have the same minimal automaton
exactly when they accept the same words. -/
theorem WellFormed.minimize_withAlphabet_eq_iff (hd : d.WellFormed) (he : e.WellFormed)
    (hda : ∀ c ∈ d.alphabet, c ∈ a) (hea : ∀ c ∈ e.alphabet, c ∈ a) :
    (d.withAlphabet a).minimize = (e.withAlphabet a).minimize ↔
      ∀ w, d.accepts w = e.accepts w := by
  have hd' := hd.withAlphabet a
  have he' := he.withAlphabet a
  constructor
  · intro h w
    rw [← accepts_withAlphabet hda, ← accepts_withAlphabet hea]
    exact hd'.accepts_eq_of_minimize_eq he' h w
  · intro h
    refine hd'.minimize_eq_of_accepts_eq he' (fun c ↦ Iff.rfl) fun w ↦ ?_
    rw [accepts_withAlphabet hda, accepts_withAlphabet hea, h]

/-! ### The decision -/

/-- Two automata are equivalent exactly when they accept the same words, whatever their alphabets
are. -/
theorem equivalent_iff (hd : d.WellFormed) (he : e.WellFormed) :
    d.equivalent e = true ↔ ∀ w, d.accepts w = e.accepts w := by
  unfold equivalent
  dsimp only
  rw [decide_eq_true_iff, minimize_equiv_iff]
  apply hd.minimize_withAlphabet_eq_iff he
  · exact fun c hc ↦ Alphabet.mem_union.mpr (.inl hc)
  · exact fun c hc ↦ Alphabet.mem_union.mpr (.inr hc)

/-- A complete automaton for the words `a`, `ab`, `abb`, …, over an alphabet with one more
character; its last state, to which no word leads, accepts words with this character. -/
def aThenBsOrC : Dfa where
  alphabet := .ofSet (.ofList ['c', 'a', 'b'])
  states := #[⟨"0", false, [some 2, some 1, some 2]⟩, ⟨"1", true, [some 2, some 2, some 1]⟩,
    ⟨"2", false, [some 2, some 2, some 2]⟩, ⟨"3", true, [some 1, some 2, some 1]⟩]
  initial := 0

/-- Automata over different alphabets, the second one also with another initial state, from which it
accepts a word that the first one does not. -/
theorem equivalent_iff_aThenBsOrC :
    aThenBs.WellFormed ∧ aThenBsOrC.WellFormed ∧ 'c' ∈ aThenBsOrC.alphabet ∧
      'c' ∉ aThenBs.alphabet ∧
      (aThenBs.equivalent aThenBsOrC = true ↔ ∀ w, aThenBs.accepts w = aThenBsOrC.accepts w) ∧
      aThenBs.equivalent { aThenBsOrC with initial := 3 } = false := by
  have hd : aThenBs.WellFormed := by decide
  have he : aThenBsOrC.WellFormed := by decide
  have he' : { aThenBsOrC with initial := 3 }.WellFormed := by decide
  refine ⟨hd, he, by decide, by decide, equivalent_iff hd he, Bool.eq_false_iff.mpr fun h ↦ ?_⟩
  have hwords := (equivalent_iff hd he').mp h ['c']
  exact absurd hwords (by decide)

end LanguageTheory.Dfa
