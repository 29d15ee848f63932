import LanguageTheory.Proofs.Dfa.Runs
import LanguageTheory.Proofs.Nfa.Paths

/-!
# Paths that are runs

A nondeterministic automaton mirrors a deterministic one when it has its initial state, its final
states and its transitions. Then the paths are the runs, so the same words are accepted, whatever
the labels of the states are.
-/

namespace LanguageTheory.Nfa

/-- What a nondeterministic automaton has in common with the deterministic one that it mirrors. -/
structure Mirrors (n : Nfa) (d : Dfa) : Prop where
  alphabet : n.alphabet = d.alphabet
  initial : ∀ i, i ∈ n.initial ↔ i = d.initial
  accepting : ∀ i, i ∈ n.accepting ↔ d.isFinal i = true
  /-- Every transition reads a character and leads to the successor on it. -/
  transitions : ∀ i s j, (i, s, j) ∈ n.transitions ↔ ∃ c, s = .char c ∧ d.next? i c = some j

namespace Mirrors

variable {n : Nfa} {d : Dfa} (h : n.Mirrors d) {i j : Nat}
include h

/-- Every transition reads a declared character. -/
theorem readsDeclared : n.ReadsDeclared := by
  intro i c j hmove
  obtain ⟨c, hs, hj⟩ := (h.transitions i _ j).mp hmove
  cases hs
  rw [h.alphabet]
  exact (Dfa.lt_and_mem_of_next? hj).2

/-- The paths are the runs. -/
theorem path_iff {w : List Char} : n.Path i w j ↔ d.run i w = some j := by
  constructor
  · intro hpath
    induction hpath with
    | refl => rfl
    | @skip i k _ _ hmove _ _ =>
      obtain ⟨c, hs, _⟩ := (h.transitions i _ k).mp hmove
      cases hs
    | @read i k _ _ _ hmove _ ih =>
      obtain ⟨c, hs, hk⟩ := (h.transitions i _ k).mp hmove
      cases hs
      rw [Dfa.run_cons, hk]
      exact ih
  · intro hrun
    induction w generalizing i with
    | nil =>
      cases hrun
      exact .refl _
    | cons c w ih =>
      rw [Dfa.run_cons] at hrun
      obtain ⟨k, hk, hrun⟩ := Option.bind_eq_some_iff.mp hrun
      exact .read ((h.transitions i _ k).mpr ⟨c, rfl, hk⟩) (ih hrun)

/-- The same words are accepted. -/
theorem accepts_eq (w : List Char) : n.accepts w = d.accepts w := by
  rw [Bool.eq_iff_iff, accepts_iff_spells h.readsDeclared, Dfa.accepts_iff]
  constructor
  · rintro ⟨i, hi, j, hj, hpath⟩
    rw [h.initial] at hi
    subst hi
    exact ⟨j, h.path_iff.mp hpath, (h.accepting j).mp hj⟩
  · rintro ⟨j, hrun, hj⟩
    exact ⟨d.initial, (h.initial _).mpr rfl, j, (h.accepting j).mpr hj, h.path_iff.mpr hrun⟩

end Mirrors

end LanguageTheory.Nfa
