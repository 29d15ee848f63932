import LanguageTheory.Dfa.Completion

/-!
# Products

The product of two automata runs both at once, over the union of their alphabets. Its states are
all pairs of states of the completed operands, and it accepts by a Boolean condition on the two.

Spec guidance: `SPEC_FULL.md` §§4.2, 13.
-/

namespace LanguageTheory.Dfa

/-- The automaton of the pairs of states, where a pair is final by `accept` of its parts (§4.2). -/
def product (accept : Bool → Bool → Bool) (d e : Dfa) : Dfa :=
  let alphabet := d.alphabet ∪ e.alphabet
  let left := (d.withAlphabet alphabet).complete
  let right := (e.withAlphabet alphabet).complete
  let pair (i j : Nat) : Nat := i * right.numStates + j
  { alphabet := alphabet
    states := left.states.flatMap fun s ↦ right.states.map fun t ↦
      { label := "(" ++ s.label ++ "," ++ t.label ++ ")"
        isFinal := accept s.isFinal t.isFinal
        next := s.next.zipWith (fun i j ↦ i.bind fun i ↦ j.map fun j ↦ pair i j) t.next }
    initial := pair left.initial right.initial }

/-- The automaton of the words that both accept. -/
def intersection (d e : Dfa) : Dfa := product and d e

/-- The automaton of the words that one of the two accepts. -/
def union (d e : Dfa) : Dfa := product or d e

end LanguageTheory.Dfa
