import LanguageTheory.Dfa.Reachability
import LanguageTheory.Partition.Refinement

/-!
# Minimal automata

States that accept the same words are merged, and the result is numbered canonically. It depends
only on the language and the characters of the alphabet, so comparing minimal automata decides
whether two automata accept the same words.

Spec guidance: `SPEC_FULL.md` §§4.2, 8, 12.4, 13.
-/

namespace LanguageTheory.Dfa

/-- Successor of a state on the `k`-th character, for complete automata. -/
def delta (d : Dfa) (i k : Nat) : Nat :=
  (((d.state? i).bind fun s ↦ s.next[k]?).join).getD i

/-- Division of the states of a complete automaton by the words that they accept. -/
def refinement (d : Dfa) : Refinement :=
  (Refinement.start d.numStates d.alphabet.size d.isFinal).run d.delta

/-- The automaton of the blocks of a partition; a block behaves like its first state. -/
def quotient (d : Dfa) (p : Partition) : Dfa where
  alphabet := d.alphabet
  states := p.blocks.map fun block ↦
    let s := (block.head?.bind d.state?).getD default
    { s with next := s.next.map fun t ↦ t.bind p.blockOf? }
  initial := (p.blockOf? d.initial).getD 0

/-- The canonical automaton with the fewest states among the complete ones for the
language (§4.2). -/
def minimize (d : Dfa) : Dfa :=
  let total := (d.withAlphabet d.alphabet.sorted).complete.removeUnreachable
  (total.quotient total.refinement.partition).canonize

/-- Whether two automata accept the same words, both read over the union of their
alphabets (§12.4). -/
def equivalent (d e : Dfa) : Bool :=
  let alphabet := d.alphabet ∪ e.alphabet
  decide ((d.withAlphabet alphabet).minimize ≈ (e.withAlphabet alphabet).minimize)

end LanguageTheory.Dfa
