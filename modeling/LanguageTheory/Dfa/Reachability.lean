import LanguageTheory.Dfa.Completion
import LanguageTheory.Search.Agenda
import LanguageTheory.Search.Trail

/-!
# Reachable states

A breadth-first search from the initial state finds the reachable states, decides whether any word
is accepted, and finds the first of the shortest accepted words. Restricting an automaton to its
reachable states keeps its language. Numbering them in the order in which the search meets them,
with the characters in increasing order, depends on the shape of an automaton only and not on how
its states were numbered or labelled.

Spec guidance: `SPEC_FULL.md` §§4.2, 12.3, 12.4, 13.
-/

namespace LanguageTheory.Dfa

/-- Successors of a state, in the order of the alphabet. -/
def successors (d : Dfa) (i : Nat) : List Nat := (d.edges i).map Prod.snd

/-- The successors in an automaton are finitely many. -/
theorem bounded_successors (d : Dfa) : Agenda.Bounded d.successors [d.initial] :=
  .of_forall _ (fun _ _ h ↦ by
    obtain ⟨e, he, rfl⟩ := List.mem_map.1 h
    exact snd_mem_of_mem_edges he) _

/-- The targets of the edges of an automaton are finitely many. -/
theorem bounded_edges (d : Dfa) : Trail.Bounded d.edges :=
  ⟨_, fun _ _ h ↦ snd_mem_of_mem_edges h⟩

/-- Reachable states in the order of a breadth-first search. -/
def reachable (d : Dfa) : List Nat :=
  (Agenda.explore d.successors [d.initial] d.bounded_successors).visited

/-- Whether no word is accepted. -/
def isEmpty (d : Dfa) : Bool := d.reachable.all fun i ↦ !d.isFinal i

/-- The first of the shortest accepted words, in the order that the alphabet gives to
words (§12.4). -/
def shortestWord? (d : Dfa) : Option (List Char) :=
  Trail.pathToGoal? d.isFinal d.edges d.bounded_edges d.initial

/-- The automaton of the states in `keep`, numbered in that order and labelled by `relabel`.
Transitions to other states are dropped. -/
def restrict (d : Dfa) (keep : List Nat) (relabel : Nat → String → String) : Dfa where
  alphabet := d.alphabet
  states := (keep.mapIdx fun k i ↦
    let s := (d.state? i).getD default
    { s with
      label := relabel k s.label
      next := s.next.map fun t ↦ t.bind fun j ↦ keep.idxOf? j }).toArray
  initial := (keep.idxOf? d.initial).getD 0

/-- The automaton of the reachable states, in their old order and with their labels (§4.2). -/
def removeUnreachable (d : Dfa) : Dfa :=
  d.restrict (d.reachable.mergeSort fun i j ↦ decide (i ≤ j)) fun _ label ↦ label

/-! ### Canonical numbering -/

/-- Label of state number `i` among `n` states: a capital letter if there are enough of them. -/
def canonicalLabel (n i : Nat) : String :=
  if n ≤ 26 then (Char.ofNat ('A'.toNat + i)).toString else toString i

/-- The reachable states over the sorted alphabet, numbered and labelled in the order of a
breadth-first search (§4.2). -/
def canonize (d : Dfa) : Dfa :=
  let sorted := d.withAlphabet d.alphabet.sorted
  let order := sorted.reachable
  sorted.restrict order fun k _ ↦ canonicalLabel order.length k

end LanguageTheory.Dfa
