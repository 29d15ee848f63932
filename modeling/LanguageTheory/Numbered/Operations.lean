import LanguageTheory.Dfa.Minimization
import LanguageTheory.Dfa.Product
import LanguageTheory.Numbered.Basic
import LanguageTheory.Numbered.Refinement

/-!
# Operations on numbered automata

The operations on automata, computed with records that are found by number. Each of them gives
`none` as soon as a lookup finds no entry, or when the automaton that it puts together lacks its
initial state or has a state that does not record its place.

Spec guidance: `SPEC_FULL.md` §§4.2, 11.1, 13.
-/

namespace LanguageTheory

/-! ### Numbers of 32 bits -/

/-- A number as minimization stores it. -/
def narrow (n : Nat) : Nat := n.toUInt32.toNat

/-- Numbers below `2 ^ 32` are stored as they are. -/
theorem narrow_of_lt {n : Nat} (h : n < UInt32.size) : narrow n = n :=
  UInt32.toNat_ofNat_of_lt' h

namespace NumberedDfa

variable (t : NumberedDfa)

/-! ### Larger alphabets and total transition functions -/

/-- The same automaton over another alphabet, which must have all its characters. -/
def withAlphabet? (a : Alphabet) : Option NumberedDfa :=
  if t.alphabet.toList.all fun c ↦ decide (c ∈ a) then do
    let states ← t.states.mapM fun s ↦ do
      let next ← a.toList.mapM (t.target? s)
      return { s with next := next }
    assemble? a states t.initial
  else none

/-- The automaton with a total transition function. -/
def complete? : Option NumberedDfa :=
  if t.states.all fun s ↦ s.next.all Option.isSome then some t
  else
    let sink := t.states.length
    let states := t.states.map fun s ↦
      { s with next := s.next.map fun target ↦ some (target.getD sink) }
    assemble? t.alphabet (states ++ [
      { id := sink
        label := freshName Dfa.sinkLabel (t.states.map State.label)
        isFinal := false
        next := List.replicate t.alphabet.size (some sink) }]) t.initial

/-! ### Reachable states -/

/-- Records the place `k` of state number `i`, for a pair of `i` and `k`. -/
def putId? (ids : List (Option Nat)) (entry : Nat × Nat) : Option (List (Option Nat)) :=
  if entry.1 < ids.length then some (ids.set entry.1 (some entry.2)) else none

/-- For each state its place in `keep`, if it is there. -/
def newIds? (keep : List Nat) : Option (List (Option Nat)) :=
  keep.zipIdx.foldlM putId? (List.replicate t.states.length none)

/-- The place of a successor, if there is one and it is kept. -/
def place? (ids : List (Option Nat)) : Option Nat → Option (Option Nat)
  | none => some none
  | some j => ids[j]?

/-- The automaton of the states in `keep`, numbered in that order. -/
def restrict? (keep : List Nat) (relabel : Nat → String → String) : Option NumberedDfa := do
  let ids ← t.newIds? keep
  let states ← keep.zipIdx.mapM fun (i, k) ↦ do
    let s ← t.states[i]?
    let next ← s.next.mapM (place? ids)
    return { id := k, label := relabel k s.label, isFinal := s.isFinal, next := next }
  let initial ← ids[t.initial]?
  assemble? t.alphabet states (initial.getD 0)

/-- Reachable states in the order of a breadth-first search, which looks up each of them. -/
def reachable? : Option (List Nat) :=
  let order := (Agenda.explore t.successors [t.initial] t.bounded_successors).visited
  if order.all (· < t.states.length) then some order else none

/-- The automaton of the reachable states. -/
def removeUnreachable? : Option NumberedDfa := do
  let order ← t.reachable?
  t.restrict? (order.mergeSort fun i j ↦ decide (i ≤ j)) fun _ label ↦ label

/-- The reachable states over the sorted alphabet, in the order of a breadth-first search. -/
def canonize? : Option NumberedDfa := do
  let sorted ← t.withAlphabet? t.alphabet.sorted
  let order ← sorted.reachable?
  sorted.restrict? order fun k _ ↦ Dfa.canonicalLabel order.length k

/-! ### Minimization -/

/-- The successors of all states one after the other; a missing one is the state itself. -/
def flattened : List Nat :=
  t.states.flatMap fun s ↦ s.next.map fun target ↦ narrow (target.getD s.id)

/-- Division of the states of a complete automaton. -/
def refinement? : Option Refinement := do
  let flattened := t.flattened
  let start ← Refinement.start? (narrow t.states.length) (narrow t.alphabet.size) fun i ↦
    (t.states[i]?).map State.isFinal
  start.stabilize? fun i k ↦ flattened[i * t.alphabet.size + k]?

/-- The record of block `b`, which behaves like its first state. -/
def blockRecord? (p : Partition) (b : Nat) : Option State := do
  let first ← p.first? b
  let s ← t.states[first]?
  let next ← s.next.mapM fun target ↦ target.mapM fun j ↦ p.blockOf? (narrow j)
  return { s with id := b, next := next }

/-- The automaton of the blocks of a partition. -/
def quotient? (p : Partition) : Option NumberedDfa := do
  let states ← (List.range (narrow p.numBlocks)).mapM (t.blockRecord? p)
  let initial ← p.blockOf? (narrow t.initial)
  assemble? t.alphabet states initial

/-- The canonical automaton with the fewest states among the complete ones for the
language (§4.2). -/
def minimize? : Option NumberedDfa := do
  let sorted ← t.withAlphabet? t.alphabet.sorted
  let complete ← sorted.complete?
  let total ← complete.removeUnreachable?
  let refinement ← total.refinement?
  let quotient ← total.quotient? refinement.partition
  quotient.canonize?

/-! ### Products -/

/-- The automaton of the pairs of states, where a pair is final by `accept` of its parts. -/
def product? (accept : Bool → Bool → Bool) (u : NumberedDfa) : Option NumberedDfa := do
  let alphabet := t.alphabet ∪ u.alphabet
  let left ← t.withAlphabet? alphabet
  let left ← left.complete?
  let right ← u.withAlphabet? alphabet
  let right ← right.complete?
  let pair (i j : Nat) : Nat := i * right.states.length + j
  let states := left.states.flatMap fun s ↦ right.states.map fun s' ↦
    { id := pair s.id s'.id
      label := "(" ++ s.label ++ "," ++ s'.label ++ ")"
      isFinal := accept s.isFinal s'.isFinal
      next := s.next.zipWith (fun i j ↦ i.bind fun i ↦ j.map fun j ↦ pair i j) s'.next }
  assemble? alphabet states (pair left.initial right.initial)

/-- The automaton of the words that both accept. -/
def intersection? (u : NumberedDfa) : Option NumberedDfa := t.product? and u

/-- The automaton of the words that one of the two accepts. -/
def union? (u : NumberedDfa) : Option NumberedDfa := t.product? or u

end NumberedDfa

end LanguageTheory
