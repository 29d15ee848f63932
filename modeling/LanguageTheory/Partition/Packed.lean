import LanguageTheory.Collections.Table
import LanguageTheory.Partition

/-!
# Partitions in one array

The blocks of a partition stand in one array, each of them in one piece, so that a block is known by
the places where it starts and stops. A split collects the classes of a block in one pass and writes
them into the piece of the block, one behind the other: the first class keeps the number of the
block, and each other class gets a new number. Every access to an array may fail, which gives
`none`.

Spec guidance: `SPEC_FULL.md` §4.2.
-/

namespace LanguageTheory

universe u

/-- The places of a block: from `start` up to `stop`, which is not one of them. -/
structure Extent where
  start : Nat
  stop : Nat
  deriving DecidableEq

/-- Two blocks that have no place in common. -/
def Extent.Apart (e f : Extent) : Prop := e.stop ≤ f.start ∨ f.stop ≤ e.start

/-- Division of numbers into blocks that stand in one array. -/
structure PackedPartition where
  /-- Places of each block, by block number. -/
  extents : Array Extent
  /-- The numbers, block by block. -/
  segment : Array Nat
  /-- Number of the block of each number. -/
  blockOf : Array Nat
  deriving DecidableEq

namespace PackedPartition

/-- The numbers below `n` in a single block, or no blocks if `n` is 0. -/
def trivial (n : Nat) : PackedPartition where
  extents := if n = 0 then #[] else #[⟨0, n⟩]
  segment := Array.range n
  blockOf := Array.replicate n 0

/-- Number of blocks. -/
def numBlocks (p : PackedPartition) : Nat := p.extents.size

/-- Number of elements of block `i`. -/
def blockSize? (p : PackedPartition) (i : Nat) : Option Nat :=
  p.extents[i]?.map fun e ↦ e.stop - e.start

/-- What stands at the places of an extent. -/
def elements (p : PackedPartition) (e : Extent) : List Nat :=
  (p.segment.extract e.start e.stop).toList

/-- What stands at the places of an extent; `none` if the array has not all of them. -/
def elements? (p : PackedPartition) (e : Extent) : Option (List Nat) :=
  if e.start ≤ e.stop ∧ e.stop ≤ p.segment.size then some (p.elements e) else none

/-- The same blocks as lists of their elements. -/
def unpack (p : PackedPartition) : Partition where
  blocks := p.extents.map p.elements
  blockOf := p.blockOf

/-- What every packed partition of the numbers below `n` satisfies: its blocks make up a partition,
the array lists each number once, and the places of the blocks divide the array. -/
structure WellFormed (p : PackedPartition) (n : Nat) : Prop where
  unpack : p.unpack.WellFormed n
  perm : p.segment.toList.Perm (List.range n)
  nonempty : ∀ e ∈ p.extents, e.start < e.stop
  within : ∀ e ∈ p.extents, e.stop ≤ n
  apart : ∀ (i j : Nat) (e f : Extent),
    p.extents[i]? = some e → p.extents[j]? = some f → i ≠ j → e.Apart f
  covering : ∀ k < n, ∃ e ∈ p.extents, e.start ≤ k ∧ k < e.stop

/-- The elements of each key, in the order in which the keys are met. -/
def collect {κ : Type u} [DecidableEq κ] (keyed : List (κ × Nat)) : Table κ (List Nat) :=
  keyed.foldl (fun t e ↦ t.upsert e.1 fun found ↦ found.getD [] ++ [e.2]) ∅

/-- Writes a number at place `k` and records its block. -/
def put? (p : PackedPartition) (i k x : Nat) : Option PackedPartition :=
  if k < p.segment.size ∧ x < p.blockOf.size then
    some { p with
      segment := p.segment.setIfInBounds k x
      blockOf := p.blockOf.setIfInBounds x i }
  else none

/-- Writes numbers one behind the other from place `k` on and records their block. -/
def write? (p : PackedPartition) (i k : Nat) : List Nat → Option PackedPartition
  | [] => some p
  | x :: xs => (p.put? i k x).bind fun q ↦ q.write? i (k + 1) xs

/-- Adds blocks with the given elements, one behind the other from place `k` on. -/
def addBlocks? (p : PackedPartition) (k : Nat) : List (List Nat) → Option PackedPartition
  | [] => some p
  | xs :: xss =>
    let extended := { p with extents := p.extents.push ⟨k, k + xs.length⟩ }
    (extended.write? p.numBlocks k xs).bind fun q ↦ q.addBlocks? (k + xs.length) xss

/-- Writes classes into the piece of block `i`, which begins at `start`. Block `i` shrinks to the
first class, and the others become blocks behind it. -/
def divide? (p : PackedPartition) (i start : Nat) (kept : List Nat) (fresh : List (List Nat)) :
    Option PackedPartition :=
  let stop := start + kept.length
  let shrunk := { p with extents := p.extents.setIfInBounds i ⟨start, stop⟩ }
  (shrunk.write? i start kept).bind fun q ↦ q.addBlocks? stop fresh

/-- Replaces block `i`, which begins at `start`, by its classes and counts the new blocks; a single
class is the block as it is. -/
def arrange? (p : PackedPartition) (i start : Nat) :
    List (List Nat) → Option (Nat × PackedPartition)
  | [] => some (0, p)
  | [_] => some (0, p)
  | kept :: fresh => (p.divide? i start kept fresh).map fun q ↦ (fresh.length, q)

/-- Splits block `i` by keys that are looked up and counts the new blocks; `none` if there is no
block `i` or one of its elements has no key. -/
def splitBy? {κ : Type u} [DecidableEq κ] (p : PackedPartition) (i : Nat)
    (key? : Nat → Option κ) : Option (Nat × PackedPartition) :=
  p.extents[i]?.bind fun e ↦ (p.elements? e).bind fun block ↦
    (block.mapM fun x ↦ (key? x).map fun k ↦ (k, x)).bind fun keyed ↦
      p.arrange? i e.start (collect keyed).values

/-- Splits block `i` by the keys of its elements and counts the new blocks. -/
def split? {κ : Type u} [DecidableEq κ] (p : PackedPartition) (i : Nat) (key : Nat → κ) :
    Option (Nat × PackedPartition) :=
  p.splitBy? i fun x ↦ some (key x)

/-- Divides block `i` into the elements that satisfy `pred` and the others, and gives the number
of the new block if both occur. -/
def refine? (p : PackedPartition) (i : Nat) (pred : Nat → Bool) :
    Option (Option Nat × PackedPartition) :=
  (p.split? i fun x ↦ !pred x).map fun (added, q) ↦
    (if added = 0 then none else some (q.numBlocks - 1), q)

/-! ### How many blocks there are -/

/-- The blocks as lists are as many. -/
@[simp]
theorem numBlocks_unpack (p : PackedPartition) : p.unpack.numBlocks = p.numBlocks :=
  Array.size_map

/-- Writing numbers moves no block. -/
theorem extents_of_write? {p q : PackedPartition} {i k : Nat} {xs : List Nat}
    (h : p.write? i k xs = some q) : q.extents = p.extents := by
  induction xs generalizing p k with
  | nil =>
    cases h
    rfl
  | cons x xs ih =>
    obtain ⟨r, hput, hrest⟩ := Option.bind_eq_some_iff.1 h
    have hr : r.extents = p.extents := by
      unfold put? at hput
      split at hput
      · cases hput
        rfl
      · cases hput
    rw [ih hrest, hr]

/-- Adding blocks adds as many to their number. -/
theorem numBlocks_of_addBlocks? {p q : PackedPartition} {k : Nat} {xss : List (List Nat)}
    (h : p.addBlocks? k xss = some q) : q.numBlocks = p.numBlocks + xss.length := by
  induction xss generalizing p k with
  | nil =>
    cases h
    rfl
  | cons xs xss ih =>
    obtain ⟨r, hwrite, hrest⟩ := Option.bind_eq_some_iff.1 h
    have hr : r.numBlocks = p.numBlocks + 1 := by
      simp only [numBlocks, extents_of_write? hwrite, Array.size_push]
    rw [ih hrest, hr, List.length_cons]
    omega

/-- A split adds as many blocks as it counts. -/
theorem numBlocks_of_splitBy? {κ : Type u} [DecidableEq κ] {p q : PackedPartition} {i : Nat}
    {key? : Nat → Option κ} {added : Nat} (h : p.splitBy? i key? = some (added, q)) :
    q.numBlocks = p.numBlocks + added := by
  unfold splitBy? at h
  obtain ⟨e, _, h⟩ := Option.bind_eq_some_iff.1 h
  obtain ⟨block, _, h⟩ := Option.bind_eq_some_iff.1 h
  obtain ⟨keyed, _, h⟩ := Option.bind_eq_some_iff.1 h
  unfold arrange? at h
  split at h
  · cases h
    rfl
  · cases h
    rfl
  · obtain ⟨r, hdivide, hr⟩ := Option.map_eq_some_iff.1 h
    cases hr
    obtain ⟨s, hwrite, hadd⟩ := Option.bind_eq_some_iff.1 hdivide
    rw [numBlocks_of_addBlocks? hadd, numBlocks, extents_of_write? hwrite,
      Array.size_setIfInBounds, numBlocks]

end PackedPartition

end LanguageTheory
