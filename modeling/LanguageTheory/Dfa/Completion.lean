import LanguageTheory.Dfa.Basic
import LanguageTheory.Text.FreshName

/-!
# Larger alphabets and total transition functions

An automaton can be read over a larger alphabet, on whose new characters it is stuck. Completion
sends every missing transition to a sink, a fresh state that is not final and is never left.

Spec guidance: `SPEC_FULL.md` §§4.2, 12.3.
-/

namespace LanguageTheory.Dfa

/-- The same automaton over another alphabet: new characters have no transitions. -/
def withAlphabet (d : Dfa) (a : Alphabet) : Dfa where
  alphabet := a
  states := d.states.map fun s ↦
    { s with next := a.toList.map fun c ↦ (d.alphabet.idxOf? c).bind fun k ↦ s.next[k]?.join }
  initial := d.initial

/-- Label of the sink, unless a state has it already. -/
def sinkLabel : String := "⊗"

/-- The automaton with a total transition function: missing transitions lead to a sink, which is
added only if there are any (§4.2). -/
def complete (d : Dfa) : Dfa :=
  if d.isComplete then d
  else
    let sink := d.numStates
    { d with
      states := (d.states.map fun s ↦
        { s with next := s.next.map fun t ↦ some (t.getD sink) }).push
          { label := freshName sinkLabel (d.states.toList.map State.label)
            isFinal := false
            next := List.replicate d.alphabet.size (some sink) } }

end LanguageTheory.Dfa
