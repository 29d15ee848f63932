import LanguageTheory.Dfa.Basic
import LanguageTheory.Nfa.Basic
import LanguageTheory.Search.Agenda

/-!
# Automata without choices

Transitions on the empty word are removed by letting each state take over the transitions of all
states that it reaches without reading anything. Running all runs of an automaton at once makes it
deterministic: the states are the non-empty sets of states that some word reaches, written as
increasing lists, and numbered in the order in which a breadth-first search meets them. In the other
direction a deterministic automaton keeps its states and their numbers.

Spec guidance: `SPEC_FULL.md` §§4.2, 12.2, 12.4, 13.
-/

namespace LanguageTheory

namespace Nfa

/-! ### Transitions on the empty word -/

/-- The targets of each state on each character, closed under transitions on the empty word. -/
def closedMoves (n : Nfa) : List ((Nat × Symbol) × OrderedSet Nat) :=
  (List.range n.numStates).flatMap fun i ↦
    let closed := n.epsilonClosure (OrderedSet.singleton i)
    n.alphabet.toList.filterMap fun c ↦
      let targets := n.read c closed
      if targets.isEmpty then none else some ((i, Symbol.char c), targets)

/-- The automaton for the same words in which every transition reads a character (§12.2). -/
def removeEpsilon (n : Nfa) : Nfa :=
  -- The empty word is accepted from the initial states themselves.
  let acceptsEmpty := n.initial.toList.filter fun i ↦
    !decide (OrderedSet.Disjoint (n.epsilonClosure (OrderedSet.singleton i)) n.accepting)
  { n with
    delta := Table.ofList n.closedMoves
    accepting := n.accepting.insertMany acceptsEmpty }

/-! ### Sets of states -/

/-- The set in which the word that led to `subset` ends when it is continued by `c`, unless no run
continues. -/
def subsetNext? (n : Nfa) (subset : List Nat) (c : Char) : Option (List Nat) :=
  let next := n.read c (OrderedSet.ofList subset)
  if next.isEmpty then none else some next.sorted

/-- The sets that follow a set, in the order of the alphabet. -/
def subsetSuccessors (n : Nfa) (subset : List Nat) : List (List Nat) :=
  n.alphabet.toList.filterMap (n.subsetNext? subset)

/-- The states that are read into are targets of the automaton. -/
theorem mem_allTargets_of_mem_read {n : Nfa} {c : Char} {states : OrderedSet Nat} {j : Nat}
    (h : j ∈ n.read c states) : j ∈ n.allTargets :=
  OrderedSet.closure_induction (fun _ ↦ mem_allTargets_of_mem_step)
    (fun _ _ _ ↦ mem_allTargets_of_mem_step) j h

/-- The sets of states of an automaton are finitely many. -/
theorem bounded_subsetSuccessors (n : Nfa) :
    Agenda.Bounded n.subsetSuccessors [n.start.sorted] := by
  obtain ⟨lists, h⟩ := Universe.exists_nodup_lists n.allTargets
  refine .of_forall lists (fun subset next hnext ↦ ?_) _
  obtain ⟨c, _, hc⟩ := List.mem_filterMap.1 hnext
  unfold subsetNext? at hc
  dsimp only at hc
  split at hc
  · cases hc
  · cases hc
    exact h _ (OrderedSet.nodup_sorted _) fun x hx ↦
      mem_allTargets_of_mem_read (OrderedSet.mem_sorted.1 hx)

/-- The search for all sets of states that some word reaches. -/
def subsets (n : Nfa) : Agenda (List Nat) :=
  Agenda.explore n.subsetSuccessors [n.start.sorted] n.bounded_subsetSuccessors

/-- Label of a set of states: the labels of its elements between braces. -/
def subsetLabel (n : Nfa) (subset : List Nat) : String :=
  "\x7b" ++ String.intercalate "," (subset.map n.label) ++ "\x7d"

/-- The deterministic automaton of the reachable sets of states (§4.2). -/
def toDfa (n : Nfa) : Dfa :=
  let known := n.subsets
  { alphabet := n.alphabet
    states := known.items.map fun subset ↦
      { label := n.subsetLabel subset
        isFinal := subset.any n.isAccepting
        next := n.alphabet.toList.map fun c ↦ (n.subsetNext? subset c).bind known.idxOf? }
    initial := 0 }

/-- The deterministic automaton of the reachable sets of states; `none` if one of them has an
element without a label. -/
def toDfa? (n : Nfa) : Option Dfa :=
  if n.subsets.visited.all fun subset ↦ subset.all (· < n.numStates) then some n.toDfa else none

end Nfa

namespace Dfa

/-! ### Deterministic automata -/

/-- The automaton with the same states and transitions. Labels of a nondeterministic automaton form
a set, so there are fewer labels than states when two states are labelled alike (§12.4). -/
def toNfa (d : Dfa) : Nfa where
  alphabet := d.alphabet
  labels := OrderedSet.ofList (d.states.toList.map State.label)
  delta := Table.ofList (d.transitions.map fun (i, c, j) ↦
    ((i, Symbol.char c), OrderedSet.singleton j))
  initial := OrderedSet.singleton d.initial
  accepting := OrderedSet.ofList d.finalStates

end Dfa

end LanguageTheory
