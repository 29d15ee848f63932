import LanguageTheory.Dfa.Basic
import LanguageTheory.Nfa.Basic

/-!
# Drafts of automata

A draft lists the parts of an automaton in terms of labels, in any order. Nothing is checked until
an automaton is made of it: every label that is used must be declared, and every character must be
in the alphabet.

Spec guidance: `SPEC_FULL.md` §§3, 7, 11.3, 13.
-/

namespace LanguageTheory

/-- Description of an automaton by labels. -/
structure AutomatonDraft where
  alphabet : List Char
  states : List String := []
  initial : List String := []
  accepting : List String := []
  transitions : List (String × Symbol × String) := []
  deriving DecidableEq

namespace AutomatonDraft

/-- Declares states. -/
def addStates (d : AutomatonDraft) (labels : List String) : AutomatonDraft :=
  { d with states := d.states ++ labels }

/-- Marks initial states. -/
def addInitial (d : AutomatonDraft) (labels : List String) : AutomatonDraft :=
  { d with initial := d.initial ++ labels }

/-- Marks accepting states. -/
def addAccepting (d : AutomatonDraft) (labels : List String) : AutomatonDraft :=
  { d with accepting := d.accepting ++ labels }

/-- Adds transitions: source, symbol and target. -/
def addTransitions (d : AutomatonDraft) (ts : List (String × Symbol × String)) : AutomatonDraft :=
  { d with transitions := d.transitions ++ ts }

/-- Number of a declared state. -/
def stateId (labels : OrderedSet String) (label : String) : Except Error Nat :=
  match labels.idxOf? label with
  | none => .error (.unknownState label)
  | some i => .ok i

/-- Adds a transition between declared states on the empty word or a declared character. -/
def addTransition (alphabet : Alphabet) (labels : OrderedSet String)
    (delta : Table (Nat × Symbol) (OrderedSet Nat)) (t : String × Symbol × String) :
    Except Error (Table (Nat × Symbol) (OrderedSet Nat)) := do
  let (source, symbol, target) := t
  let i ← stateId labels source
  let j ← stateId labels target
  match symbol with
  | .epsilon => pure ()
  | .char c => if c ∈ alphabet then pure () else throw (.unknownSymbol c)
  return delta.upsert (i, symbol) fun targets ↦ (targets.getD ∅).insert j

/-- The automaton that a draft describes, with any number of initial states (§7). -/
def check (d : AutomatonDraft) : Except Error Nfa := do
  let alphabet ← Alphabet.ofChars d.alphabet
  let labels := OrderedSet.ofList d.states
  let initial ← d.initial.mapM (stateId labels)
  let accepting ← d.accepting.mapM (stateId labels)
  let delta ← d.transitions.foldlM (addTransition alphabet labels) ∅
  return {
    alphabet := alphabet
    labels := labels
    delta := delta
    initial := OrderedSet.ofList initial
    accepting := OrderedSet.ofList accepting }

/-- The automaton that a draft describes, which must have an initial state. -/
def toNfa (d : AutomatonDraft) : Except Error Nfa := do
  let n ← d.check
  if n.initial.isEmpty then throw .missingInitialState else return n

/-- The only initial state of an automaton. -/
def uniqueInitial (initial : OrderedSet Nat) : Except Error Nat :=
  match initial.toList with
  | [] => .error .missingInitialState
  | [i] => .ok i
  | _ => .error .multipleInitialStates

/-- The first reason, in the order of the transitions, why an automaton is not deterministic. -/
def conflict? (n : Nfa) : Option Error :=
  n.delta.entries.findSome? fun ((i, symbol), targets) ↦
    match symbol with
    | .epsilon => some (.unknownSymbol epsilonChar)
    | .char c =>
      if 1 < targets.size then some (.nondeterministicTransition (n.label i) c) else none

/-- The deterministic automaton that a draft describes: it must have one initial state, no
transition on the empty word, and at most one transition of each state on each character (§7). -/
def toDfa (d : AutomatonDraft) : Except Error Dfa := do
  let n ← d.check
  let initial ← uniqueInitial n.initial
  match conflict? n with
  | some e => throw e
  | none =>
    return {
      alphabet := n.alphabet
      states := (n.labels.toList.mapIdx fun i label ↦
        { label := label
          isFinal := n.isAccepting i
          next := n.alphabet.toList.map fun c ↦
            (n.targets? i (.char c)).bind OrderedSet.first? }).toArray
      initial := initial }

end AutomatonDraft

end LanguageTheory
