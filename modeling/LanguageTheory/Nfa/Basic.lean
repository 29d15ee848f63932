import LanguageTheory.Alphabet
import LanguageTheory.Collections.Closure
import LanguageTheory.Collections.Table

/-!
# Nondeterministic automata

A nondeterministic automaton relates each state and symbol to a set of states; the symbol may be
the empty word. States are numbers, and the state number `i` is labelled by the `i`-th label. A
word is accepted when one of its runs from an initial state ends in an accepting state; `accepts`
follows all runs at once.

Spec guidance: `SPEC_FULL.md` §§3, 4.2, 12.1.
-/

namespace LanguageTheory

/-- Nondeterministic automaton, possibly with transitions on the empty word. -/
structure Nfa where
  alphabet : Alphabet
  labels : OrderedSet String
  /-- Targets of the transitions of a state on a symbol. -/
  delta : Table (Nat × Symbol) (OrderedSet Nat)
  initial : OrderedSet Nat
  accepting : OrderedSet Nat
  deriving DecidableEq

namespace Nfa

/-- Two automata are equivalent as descriptions when they differ in the order of their sets at
most. -/
instance : HasEquiv Nfa :=
  ⟨fun m n ↦ m.alphabet ≈ n.alphabet ∧ m.labels ≈ n.labels ∧ m.delta ≈ n.delta ∧
    m.initial ≈ n.initial ∧ m.accepting ≈ n.accepting⟩

instance (m n : Nfa) : Decidable (m ≈ n) :=
  inferInstanceAs (Decidable (m.alphabet ≈ n.alphabet ∧ m.labels ≈ n.labels ∧
    m.delta ≈ n.delta ∧ m.initial ≈ n.initial ∧ m.accepting ≈ n.accepting))

/-- Number of labelled states. -/
def numStates (n : Nfa) : Nat := n.labels.size

/-- Label of state number `i`, empty if it has none. -/
def label (n : Nfa) (i : Nat) : String := (n.labels.get? i).getD ""

/-- Number of the state with a label. -/
def findLabel? (n : Nfa) (label : String) : Option Nat := n.labels.idxOf? label

/-- Whether state number `i` is accepting. -/
def isAccepting (n : Nfa) (i : Nat) : Bool := n.accepting.contains i

/-- Targets of the transitions of a state on a symbol, if there are any. -/
def targets? (n : Nfa) (i : Nat) (s : Symbol) : Option (OrderedSet Nat) := n.delta.get? (i, s)

/-- All transitions: source, symbol and target. -/
def transitions (n : Nfa) : List (Nat × Symbol × Nat) :=
  n.delta.entries.flatMap fun ((i, s), targets) ↦ targets.toList.map fun j ↦ (i, s, j)

/-- Whether some transition reads the empty word. -/
def hasEpsilonMoves (n : Nfa) : Bool := n.delta.keys.any fun (_, s) ↦ s.isEpsilon

/-- States that are reached from a set of states by one transition on a symbol. -/
def step (n : Nfa) (s : Symbol) (states : OrderedSet Nat) : OrderedSet Nat :=
  OrderedSet.unionAll (states.toList.filterMap fun i ↦ n.targets? i s)

/-- All targets of transitions. -/
def allTargets (n : Nfa) : List Nat := n.delta.values.flatMap OrderedSet.toList

/-- One transition leads to a target of the automaton. -/
theorem mem_allTargets_of_mem_step {n : Nfa} {s : Symbol} {states : OrderedSet Nat} {j : Nat}
    (h : j ∈ n.step s states) : j ∈ n.allTargets := by
  obtain ⟨targets, ht, hj⟩ := OrderedSet.mem_unionAll.1 h
  obtain ⟨i, _, hi⟩ := List.mem_filterMap.1 ht
  exact List.mem_flatMap.2 ⟨targets, List.mem_map.2 ⟨_, Table.get?_eq_some_iff.1 hi, rfl⟩, hj⟩

/-- The targets of the transitions of an automaton are finitely many. -/
theorem bounded_step (n : Nfa) (s : Symbol) : OrderedSet.Bounded (n.step s) :=
  ⟨n.allTargets, fun _ _ ↦ mem_allTargets_of_mem_step⟩

/-- The states that are reached from a set of states without reading anything (§4.2). -/
def epsilonClosure (n : Nfa) (states : OrderedSet Nat) : OrderedSet Nat :=
  OrderedSet.closure (n.step .epsilon) (n.bounded_step .epsilon) states

/-- The states that are reached from a set of states by reading one character and then nothing. -/
def read (n : Nfa) (c : Char) (states : OrderedSet Nat) : OrderedSet Nat :=
  n.epsilonClosure (n.step (.char c) states)

/-- The states in which a run on the empty word can end. -/
def start (n : Nfa) : OrderedSet Nat := n.epsilonClosure n.initial

/-- Whether a word leads from one of the given states to an accepting state. -/
def acceptsFrom (n : Nfa) (states : OrderedSet Nat) : List Char → Bool
  | [] => !decide (OrderedSet.Disjoint states n.accepting)
  | c :: cs =>
    if c ∈ n.alphabet then
      let next := n.read c states
      if next.isEmpty then false else n.acceptsFrom next cs
    else false

/-- Whether a word leads from an initial state to an accepting state (§12.1). -/
def accepts (n : Nfa) (w : List Char) : Bool := n.acceptsFrom n.start w

/-- The states that an automaton refers to: initial, accepting, sources and targets. -/
def usedStates (n : Nfa) : List Nat :=
  n.initial.toList ++ n.accepting.toList ++
    n.delta.entries.flatMap fun ((i, _), targets) ↦ i :: targets.toList

/-- Whether every state that is referred to has a label. -/
def IsLabelled (n : Nfa) : Prop := ∀ i ∈ n.usedStates, i < n.numStates

instance (n : Nfa) : Decidable n.IsLabelled :=
  inferInstanceAs (Decidable (∀ i ∈ n.usedStates, i < n.numStates))

/-- Text of an automaton: its states, alphabet, initial and final states and transitions. -/
def render (n : Nfa) : String :=
  let set (states : OrderedSet Nat) : String := (states.map n.label).render id
  toString n.numStates ++ " states\n" ++
  "alphabet: " ++ n.alphabet.render ++ "\n" ++
  "initial states: " ++ set n.initial ++ "\n" ++
  "final states: " ++ set n.accepting ++ "\n" ++
  "transitions:\n" ++
  String.join (n.delta.entries.map fun ((i, s), targets) ↦
    "  δ(" ++ n.label i ++ ", " ++ s.render ++ ") = " ++ set targets ++ "\n")

/-- Text of an automaton; `none` if it refers to a state without a label. -/
def render? (n : Nfa) : Option String := if n.IsLabelled then some n.render else none

end Nfa

end LanguageTheory
