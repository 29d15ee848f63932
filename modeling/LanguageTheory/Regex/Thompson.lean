import LanguageTheory.Dfa.Minimization
import LanguageTheory.Nfa.Conversions
import LanguageTheory.Regex.Basic

/-!
# Automata of expressions

An expression is woven between two states so that the words that lead from the first to the second
are the words of the expression. Fresh states are labelled by numbers.

Spec guidance: `SPEC_FULL.md` §4.3.
-/

namespace LanguageTheory

/-- States and transitions of an automaton under construction. -/
structure Weave where
  labels : OrderedSet String
  delta : Table (Nat × Symbol) (OrderedSet Nat)
  deriving DecidableEq

namespace Weave

/-- The first number from `k` on whose text is not in use. -/
def freshNumber (k : Nat) (used : List String) : Nat :=
  -- A used number is struck off: it is not asked for again.
  if toString k ∈ used then freshNumber (k + 1) (used.erase (toString k)) else k
termination_by used.length
decreasing_by
  rename_i h
  rw [List.length_erase_of_mem h]
  have := List.length_pos_of_mem h
  omega

/-- Adds a state with a fresh number as its label. -/
def fresh (b : Weave) : Nat × Weave :=
  (b.labels.size,
    { b with labels := b.labels.insert (toString (freshNumber b.labels.size b.labels.toList)) })

/-- Adds a transition. -/
def connect (b : Weave) (i : Nat) (s : Symbol) (j : Nat) : Weave :=
  { b with delta := b.delta.upsert (i, s) fun targets ↦ (targets.getD ∅).insert j }

/-- Adds states and transitions that lead from state `i` to state `j` on the words of an
expression (§4.3). -/
def thread (b : Weave) (i j : Nat) : Regex → Weave
  | .epsilon => b.connect i .epsilon j
  | .literal c => b.connect i (.char c) j
  | .alternation r s => (b.thread i j r).thread i j s
  | .concatenation r s =>
    let (mid, b) := b.fresh
    (b.thread i mid r).thread mid j s
  | .star r =>
    let (loop, b) := b.fresh
    ((b.connect i .epsilon loop).thread loop loop r).connect loop .epsilon j

end Weave

namespace Regex

/-- The automaton of an expression: state 0 is initial and state 1 is accepting (§4.3). -/
def toNfa (r : Regex) : Nfa :=
  let b : Weave := ⟨OrderedSet.ofList ["0", "1"], ∅⟩
  let b := b.thread 0 1 r
  { alphabet := r.alphabet
    labels := b.labels
    delta := b.delta
    initial := OrderedSet.singleton 0
    accepting := OrderedSet.singleton 1 }

/-- The minimal deterministic automaton of an expression. -/
def toDfa (r : Regex) : Dfa := r.toNfa.toDfa.minimize

/-- Whether a word is a word of an expression. -/
def accepts (r : Regex) (w : List Char) : Bool := r.toNfa.accepts w

end Regex

end LanguageTheory
