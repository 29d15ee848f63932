import LanguageTheory.Partition

/-!
# Refinement of a partition by a transition function

The states of a complete automaton are numbers, and so are its symbols. Starting from the division
into final and other states, each round splits the blocks by the blocks of the successors. The
last round changes nothing, so states of one block behave alike on every word. A transition function
may be partial, as long as every successor that is compared exists.

Spec guidance: `SPEC_FULL.md` §4.2.
-/

namespace LanguageTheory

/-- A partition of states under refinement, with the number of rounds so far. -/
structure Refinement where
  numStates : Nat
  numSymbols : Nat
  partition : Partition
  rounds : Nat
  deriving DecidableEq

namespace Refinement

/-- The states divided into final and other states. -/
def start (numStates numSymbols : Nat) (isFinal : Nat → Bool) : Refinement where
  numStates := numStates
  numSymbols := numSymbols
  partition := (Partition.trivial numStates).split 0 fun s ↦ !isFinal s
  rounds := 0

/-- Blocks of the successors of a state, in the order of the symbols. -/
def signature (p : Partition) (numSymbols : Nat) (delta : Nat → Nat → Nat) (s : Nat) :
    List (Option Nat) :=
  (List.range numSymbols).map fun c ↦ p.blockOf? (delta s c)

/-- Splits every block by the signatures that the partition gave when the round began. -/
def round (delta : Nat → Nat → Nat) (r : Refinement) : Refinement :=
  let key := signature r.partition r.numSymbols delta
  { r with
    partition := (List.range r.partition.numBlocks).foldl (fun p i ↦ p.split i key) r.partition
    rounds := r.rounds + 1 }

/-- Rounds of refinement until one splits no block or every block is a single state (§4.2). -/
def run (delta : Nat → Nat → Nat) (r : Refinement) : Refinement :=
  if r.partition.numBlocks < r.numStates then
    let next := round delta r
    if r.partition.numBlocks < next.partition.numBlocks then run delta next else next
  else r
termination_by r.numStates - r.partition.numBlocks
decreasing_by
  rename_i hlt hgrow
  change r.numStates - (round delta r).partition.numBlocks < _
  change r.partition.numBlocks < (round delta r).partition.numBlocks at hgrow
  omega

/-- Whether a partial transition function leads to a state wherever refinement follows it. A state
that is alone in its block is compared with no other, so nothing is asked of its successors. -/
def IsDefined (delta : Nat → Nat → Option Nat) (r : Refinement) : Prop :=
  ∀ s ∈ r.partition.shared, ∀ c < r.numSymbols, ∃ t ∈ delta s c, t < r.numStates

instance (delta : Nat → Nat → Option Nat) (r : Refinement) : Decidable (r.IsDefined delta) :=
  inferInstanceAs (Decidable (∀ s ∈ r.partition.shared, ∀ c < r.numSymbols, ∃ t ∈ delta s c,
    t < r.numStates))

/-- Rounds of refinement by a partial transition function; `none` if a successor that is needed is
missing or not a state. -/
def run? (delta : Nat → Nat → Option Nat) (r : Refinement) : Option Refinement :=
  if r.IsDefined delta then some (r.run fun s c ↦ (delta s c).getD 0) else none

/-- Refinement by a transition function that stays among the states never fails. -/
theorem run?_some {delta : Nat → Nat → Nat} {r : Refinement}
    (h : ∀ s ∈ r.partition.shared, ∀ c < r.numSymbols, delta s c < r.numStates) :
    r.run? (fun s c ↦ some (delta s c)) = some (r.run delta) :=
  if_pos fun s hs c hc ↦ ⟨delta s c, rfl, h s hs c hc⟩

/-- Text of a refinement: its sizes and the blocks. -/
def render (r : Refinement) : String :=
  "Minimizer: " ++ toString r.numStates ++ " states, " ++ toString r.numSymbols ++ " chars, " ++
    toString r.rounds ++ " rounds\n" ++ r.partition.render

end Refinement

end LanguageTheory
