import LanguageTheory.AutomatonDraft
import LanguageTheory.Pushdown.Basic

/-!
# Drafts of pushdown automata

A draft lists the parts of a pushdown automaton in terms of labels, in any order. Nothing is checked
until an automaton is made of it.

Spec guidance: `SPEC_FULL.md` §§3, 7, 11.3.
-/

namespace LanguageTheory

/-- Transition between labelled states. -/
structure PushdownDraft.Transition where
  source : String
  input : Option Char
  pop : List Pushdown.StackSymbol
  target : String
  push : List Pushdown.StackSymbol
  deriving DecidableEq

/-- Description of a pushdown automaton by labels. -/
structure PushdownDraft where
  alphabet : List Char
  initialStack : Pushdown.StackSymbol
  acceptance : Pushdown.Acceptance
  states : List String := []
  initial : List String := []
  accepting : List String := []
  transitions : List PushdownDraft.Transition := []
  deriving DecidableEq

namespace PushdownDraft

/-- Declares states. -/
def addStates (d : PushdownDraft) (labels : List String) : PushdownDraft :=
  { d with states := d.states ++ labels }

/-- Marks initial states. -/
def addInitial (d : PushdownDraft) (labels : List String) : PushdownDraft :=
  { d with initial := d.initial ++ labels }

/-- Marks accepting states. -/
def addAccepting (d : PushdownDraft) (labels : List String) : PushdownDraft :=
  { d with accepting := d.accepting ++ labels }

/-- Adds transitions. -/
def addTransitions (d : PushdownDraft) (ts : List Transition) : PushdownDraft :=
  { d with transitions := d.transitions ++ ts }

/-- A transition between declared states that reads nothing or a declared character. -/
def checkTransition (alphabet : Alphabet) (labels : OrderedSet String) (t : Transition) :
    Except Error Pushdown.Transition := do
  match t.input with
  | none => pure ()
  | some c => if c ∈ alphabet then pure () else throw (.unknownSymbol c)
  let source ← AutomatonDraft.stateId labels t.source
  let target ← AutomatonDraft.stateId labels t.target
  return { source := source, input := t.input, pop := t.pop, target := target, push := t.push }

/-- The pushdown automaton that a draft describes, which must have one initial state (§7). -/
def toPushdown (d : PushdownDraft) : Except Error Pushdown := do
  let alphabet ← Alphabet.ofChars d.alphabet
  let labels := OrderedSet.ofList d.states
  let initial ← d.initial.mapM (AutomatonDraft.stateId labels)
  let initial ← AutomatonDraft.uniqueInitial (OrderedSet.ofList initial)
  let accepting ← d.accepting.mapM (AutomatonDraft.stateId labels)
  let transitions ← d.transitions.mapM (checkTransition alphabet labels)
  return {
    labels := labels
    alphabet := alphabet
    transitions := transitions
    initial := initial
    initialStack := d.initialStack
    accepting := OrderedSet.ofList accepting
    acceptance := d.acceptance }

end PushdownDraft

end LanguageTheory
