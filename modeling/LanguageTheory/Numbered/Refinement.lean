import LanguageTheory.Partition.Refinement

/-!
# Refinement that looks up what it compares

The same refinement with all its lookups: the elements of a block have keys that must be found, and
the block of an element is recorded in a place that must be there. A missing entry gives `none`.

Spec guidance: `SPEC_FULL.md` §§4.2, 11.1.
-/

namespace LanguageTheory

universe u

/-- Splits block `i` by keys that are looked up; `none` if there is no block `i`, or if one of its
elements has no key or no place for its block. -/
def Partition.splitBy? {κ : Type u} [DecidableEq κ] [Inhabited κ] (p : Partition) (i : Nat)
    (key? : Nat → Option κ) : Option Partition := do
  let block ← p.block? i
  if ∀ x ∈ block, (key? x).isSome ∧ x < p.blockOf.size then
    return p.split i fun x ↦ (key? x).getD default
  else none

namespace Refinement

/-- The states divided into final and other states. -/
def start? (numStates numSymbols : Nat) (isFinal? : Nat → Option Bool) : Option Refinement := do
  let trivial := Partition.trivial numStates
  let partition ← if 0 < numStates then trivial.splitBy? 0 fun s ↦ (isFinal? s).map not
    else some trivial
  return ⟨numStates, numSymbols, partition, 0⟩

/-- Blocks of the successors of a state, in the order of the symbols. -/
def signature? (p : Partition) (numSymbols : Nat) (delta? : Nat → Nat → Option Nat) (s : Nat) :
    Option (List (Option Nat)) :=
  (List.range numSymbols).mapM fun c ↦ do
    let t ← delta? s c
    let b ← p.blockOf? t
    return some b

/-- The partition after a round, which splits every block by the signatures of its elements. The
signatures of elements that are alone in their blocks are looked up as well. -/
def divide? (delta? : Nat → Nat → Option Nat) (r : Refinement) : Option Partition :=
  (List.range r.partition.numBlocks).foldlM
    (fun p i ↦ p.splitBy? i (signature? r.partition r.numSymbols delta?)) r.partition

/-- Rounds of refinement until one splits no block or every block is a single state. -/
def stabilize? (delta? : Nat → Nat → Option Nat) (r : Refinement) : Option Refinement :=
  if r.partition.numBlocks < r.numStates then
    match divide? delta? r with
    | none => none
    | some p =>
      let next := { r with partition := p, rounds := r.rounds + 1 }
      if r.partition.numBlocks < p.numBlocks then stabilize? delta? next else some next
  else some r
termination_by r.numStates - r.partition.numBlocks
decreasing_by
  rename_i hlt hgrow
  omega

end Refinement

end LanguageTheory
