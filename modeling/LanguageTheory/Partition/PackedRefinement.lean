import LanguageTheory.Partition.Packed
import LanguageTheory.Partition.Refinement

/-!
# Refinement of a packed partition

The rounds of refinement on a partition in one array. A round keeps a copy of the records from which
it takes the signatures, passes over blocks of one state, and notes whether it has split a block.
Every lookup of a record may fail.

Spec guidance: `SPEC_FULL.md` §4.2.
-/

namespace LanguageTheory

universe u

/-- A packed partition of states under refinement, with the number of rounds so far. -/
structure PackedRefinement where
  numStates : Nat
  numSymbols : Nat
  partition : PackedPartition
  rounds : Nat
  deriving DecidableEq

namespace PackedRefinement

/-- The same refinement with the blocks as lists of their elements. -/
def unpack (r : PackedRefinement) : Refinement where
  numStates := r.numStates
  numSymbols := r.numSymbols
  partition := r.partition.unpack
  rounds := r.rounds

/-- The states divided into final and other states, if there are states. -/
def start? (numStates numSymbols : Nat) (isFinal : Nat → Bool) : Option PackedRefinement :=
  let whole := PackedPartition.trivial numStates
  let divided := if 0 < numStates then (whole.refine? 0 isFinal).map Prod.snd else some whole
  divided.map fun p ↦ ⟨numStates, numSymbols, p, 0⟩

/-- Recorded blocks of the successors of a state, in the order of the symbols. -/
def signature? (blockOf : Array Nat) (numSymbols : Nat) (delta : Nat → Nat → Nat) (s : Nat) :
    Option (List Nat) :=
  (List.range numSymbols).mapM fun c ↦ blockOf[delta s c]?

/-- Splits block `i` if it has more than one element; the flag tells whether some block has been
split. -/
def visit? {κ : Type u} [DecidableEq κ] (key? : Nat → Option κ)
    (state : Bool × PackedPartition) (i : Nat) : Option (Bool × PackedPartition) :=
  (state.2.blockSize? i).bind fun size ↦
    if 1 < size then
      (state.2.splitBy? i key?).map fun (added, q) ↦ (state.1 || decide (0 < added), q)
    else some state

/-- Visits every block with the signatures that the partition gave when the round began. -/
def round? (delta : Nat → Nat → Nat) (r : PackedRefinement) : Option (Bool × PackedRefinement) :=
  let key? := signature? r.partition.blockOf r.numSymbols delta
  ((List.range r.partition.numBlocks).foldlM (visit? key?) (false, r.partition)).map
    fun (changed, p) ↦ (changed, { r with partition := p, rounds := r.rounds + 1 })

/-- A visit sets the flag when it adds a block, and takes no block away. -/
theorem flag_of_visit? {κ : Type u} [DecidableEq κ] {key? : Nat → Option κ}
    {state next : Bool × PackedPartition} {i : Nat} (h : visit? key? state i = some next) :
    state.2.numBlocks ≤ next.2.numBlocks ∧
      (next.1 = true ↔ state.1 = true ∨ state.2.numBlocks < next.2.numBlocks) := by
  obtain ⟨size, _, h⟩ := Option.bind_eq_some_iff.1 h
  split at h
  · obtain ⟨⟨added, q⟩, hsplit, hnext⟩ := Option.map_eq_some_iff.1 h
    cases hnext
    have hgrow := PackedPartition.numBlocks_of_splitBy? hsplit
    change _ ≤ q.numBlocks ∧
      ((state.1 || decide (0 < added)) = true ↔ state.1 = true ∨ _ < q.numBlocks)
    rw [hgrow, Bool.or_eq_true, decide_eq_true_eq]
    exact ⟨by omega, or_congr_right (by omega)⟩
  · cases h
    simp

/-- Visits set the flag when they add a block. -/
theorem flag_of_foldlM_visit? {κ : Type u} [DecidableEq κ] {key? : Nat → Option κ} {is : List Nat}
    {state next : Bool × PackedPartition} (h : is.foldlM (visit? key?) state = some next) :
    state.2.numBlocks ≤ next.2.numBlocks ∧
      (next.1 = true ↔ state.1 = true ∨ state.2.numBlocks < next.2.numBlocks) := by
  induction is generalizing state with
  | nil =>
    cases h
    simp
  | cons i is ih =>
    rw [List.foldlM_cons] at h
    obtain ⟨middle, hvisit, hrest⟩ := Option.bind_eq_some_iff.1 h
    obtain ⟨hle, hflag⟩ := flag_of_visit? hvisit
    obtain ⟨hle', hflag'⟩ := ih hrest
    refine ⟨Nat.le_trans hle hle', ?_⟩
    rw [hflag', hflag, or_assoc]
    exact or_congr_right (by omega)

/-- A round that splits a block leaves more blocks. -/
theorem numBlocks_lt_of_round? {delta : Nat → Nat → Nat} {r next : PackedRefinement}
    (h : round? delta r = some (true, next)) :
    next.numStates = r.numStates ∧ r.partition.numBlocks < next.partition.numBlocks := by
  obtain ⟨⟨changed, p⟩, hvisits, hnext⟩ := Option.map_eq_some_iff.1 h
  cases hnext
  exact ⟨rfl, by simpa using (flag_of_foldlM_visit? hvisits).2⟩

/-- Rounds of refinement until one splits no block or every block is a single state (§4.2). -/
def run? (delta : Nat → Nat → Nat) (r : PackedRefinement) : Option PackedRefinement :=
  if r.partition.numBlocks < r.numStates then
    match _h : round? delta r with
    | none => none
    | some (true, next) => run? delta next
    | some (false, next) => some next
  else some r
termination_by r.numStates - r.partition.numBlocks
decreasing_by
  obtain ⟨hstates, hgrow⟩ := numBlocks_lt_of_round? _h
  omega

end PackedRefinement

end LanguageTheory
