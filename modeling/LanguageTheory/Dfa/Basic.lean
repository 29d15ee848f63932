import LanguageTheory.Alphabet

/-!
# Deterministic automata

The states of a deterministic automaton are numbered from 0, and every state has a label for its
users. The transition function is partial: a state need not have a successor on every character,
and a run that asks for a missing successor is stuck.

Spec guidance: `SPEC_FULL.md` §§3, 12.1.
-/

namespace LanguageTheory

/-- State of a deterministic automaton. -/
structure Dfa.State where
  label : String
  isFinal : Bool
  /-- Successors, in the order of the alphabet. -/
  next : List (Option Nat)
  deriving DecidableEq, Repr, Inhabited

/-- Deterministic automaton with a partial transition function. -/
structure Dfa where
  alphabet : Alphabet
  states : Array Dfa.State
  /-- Number of the initial state. -/
  initial : Nat
  deriving DecidableEq

namespace Dfa

/-- Whether a state has a successor on every character. -/
def State.isComplete (s : State) : Bool := s.next.all Option.isSome

/-- What every automaton of this library satisfies: each state lists one entry for each character,
and the initial state and all successors exist. -/
structure WellFormed (d : Dfa) : Prop where
  initial_lt : d.initial < d.states.size
  length_next : ∀ s ∈ d.states, s.next.length = d.alphabet.size
  next_lt : ∀ s ∈ d.states, ∀ j, some j ∈ s.next → j < d.states.size

/-- Two automata are equivalent as descriptions when they differ in the order of their alphabets at
most. -/
instance : HasEquiv Dfa :=
  ⟨fun d e ↦ d.alphabet ≈ e.alphabet ∧ d.states = e.states ∧ d.initial = e.initial⟩

instance (d e : Dfa) : Decidable (d ≈ e) :=
  inferInstanceAs (Decidable (d.alphabet ≈ e.alphabet ∧ d.states = e.states ∧
    d.initial = e.initial))

/-- Number of states. -/
def numStates (d : Dfa) : Nat := d.states.size

/-- State number `i`. -/
def state? (d : Dfa) (i : Nat) : Option State := d.states[i]?

/-- Label of state number `i`, empty if there is no such state. -/
def label (d : Dfa) (i : Nat) : String := (d.state? i).elim "" State.label

/-- Whether state number `i` is final. -/
def isFinal (d : Dfa) (i : Nat) : Bool := (d.state? i).elim false State.isFinal

/-- Number of the first state with a label. -/
def findLabel? (d : Dfa) (label : String) : Option Nat :=
  d.states.findIdx? fun s ↦ s.label = label

/-- Final states in the order of their numbers. -/
def finalStates (d : Dfa) : List Nat := (List.range d.numStates).filter d.isFinal

/-- Whether the transition function is total. -/
def isComplete (d : Dfa) : Bool := d.states.all State.isComplete

/-- Successor of state number `i` on a character. -/
def next? (d : Dfa) (i : Nat) (c : Char) : Option Nat :=
  (d.alphabet.idxOf? c).bind fun k ↦ (d.state? i).bind fun s ↦ s.next[k]?.join

/-- State that is reached from state number `i` by a word, unless the run is stuck. -/
def run (d : Dfa) (i : Nat) : List Char → Option Nat
  | [] => some i
  | c :: cs => (d.next? i c).bind fun j ↦ d.run j cs

/-- Whether the run of a word from the initial state ends in a final state. -/
def accepts (d : Dfa) (w : List Char) : Bool := (d.run d.initial w).elim false d.isFinal

/-- Transitions from state number `i`: their characters and targets, in the order of the
alphabet. -/
def edges (d : Dfa) (i : Nat) : List (Char × Nat) :=
  match d.state? i with
  | none => []
  | some s => (d.alphabet.toList.zip s.next).filterMap fun (c, t) ↦ t.map fun j ↦ (c, j)

/-- All transitions: source, character and target. -/
def transitions (d : Dfa) : List (Nat × Char × Nat) :=
  (List.range d.numStates).flatMap fun i ↦ (d.edges i).map fun (c, j) ↦ (i, c, j)

/-- A run over two words in turn. -/
theorem run_append (d : Dfa) (i : Nat) (u v : List Char) :
    d.run i (u ++ v) = (d.run i u).bind fun j ↦ d.run j v := by
  induction u generalizing i with
  | nil => rfl
  | cons c u ih =>
    simp only [List.cons_append, run]
    cases d.next? i c with
    | none => rfl
    | some j => exact ih j

/-- Every listed edge is the edge to an existing target. -/
theorem snd_mem_of_mem_edges {d : Dfa} {i : Nat} {e : Char × Nat} (h : e ∈ d.edges i) :
    e.2 ∈ d.states.toList.flatMap fun s ↦ s.next.filterMap id := by
  unfold edges at h
  split at h
  · cases h
  · next s hs =>
    obtain ⟨⟨c, t⟩, hct, he⟩ := List.mem_filterMap.1 h
    obtain ⟨j, rfl, rfl⟩ := Option.map_eq_some_iff.1 he
    refine List.mem_flatMap.2 ⟨s, ?_, List.mem_filterMap.2 ⟨some j, (List.of_mem_zip hct).2, rfl⟩⟩
    exact Array.mem_toList_iff.2 (Array.mem_of_getElem? hs)

/-- Text of an automaton: its states, alphabet, initial and final states and transitions. -/
def render (d : Dfa) : String :=
  let plural (n : Nat) : String := if n = 1 then "" else "s"
  toString d.numStates ++ " state" ++ plural d.numStates ++ "\n" ++
  "alphabet: " ++ d.alphabet.render ++ "\n" ++
  "initial state: " ++ d.label d.initial ++ "\n" ++
  "final state" ++ plural d.finalStates.length ++ ":" ++
  String.join (d.finalStates.map fun i ↦ " " ++ d.label i) ++ "\n" ++
  "transitions:\n" ++
  String.join (d.transitions.map fun (i, c, j) ↦
    "  δ(" ++ d.label i ++ ", " ++ c.toString ++ ") = " ++ d.label j ++ "\n")

end Dfa

end LanguageTheory
