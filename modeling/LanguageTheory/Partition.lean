/-!
# Partitions of an initial segment of the naturals

A `Partition` divides the numbers below some bound into blocks, which are numbered in the order of
their creation. Splitting is stable: the class of the first element of a block keeps the number of
the block, the other classes get fresh numbers in the order of their first elements, and every
class lists its elements in their old order.

Spec guidance: `SPEC_FULL.md` §4.2.
-/

namespace LanguageTheory

universe u

/-- Division of the numbers below `blockOf.size` into blocks. -/
structure Partition where
  /-- Elements of each block, by block number. -/
  blocks : Array (List Nat)
  /-- Number of the block of each element. -/
  blockOf : Array Nat
  deriving DecidableEq

namespace Partition

/-- The partition of the numbers below `n` with a single block, or without blocks if `n` is 0. -/
def trivial (n : Nat) : Partition where
  blocks := if n = 0 then #[] else #[List.range n]
  blockOf := Array.replicate n 0

/-- Number of blocks. -/
def numBlocks (p : Partition) : Nat := p.blocks.size

/-- Elements of block `i`. -/
def block? (p : Partition) (i : Nat) : Option (List Nat) := p.blocks[i]?

/-- First element of block `i`. -/
def first? (p : Partition) (i : Nat) : Option Nat := (p.block? i).bind List.head?

/-- Number of the block of `x`. -/
def blockOf? (p : Partition) (x : Nat) : Option Nat := p.blockOf[x]?

/-- The elements that share their block with another one. -/
def shared (p : Partition) : List Nat :=
  (p.blocks.toList.filter fun block ↦ 1 < block.length).flatten

/-- What every partition of the numbers below `n` satisfies: the blocks list each number once, each
block lists some numbers in increasing order, and the block of each number is recorded. -/
structure WellFormed (p : Partition) (n : Nat) : Prop where
  perm : p.blocks.toList.flatten.Perm (List.range n)
  ne_nil : ∀ block ∈ p.blocks, block ≠ []
  increasing : ∀ block ∈ p.blocks, block.Pairwise (· < ·)
  size_blockOf : p.blockOf.size = n
  blockOf_iff : ∀ x i, p.blockOf? x = some i ↔ ∃ block, p.block? i = some block ∧ x ∈ block

/-- The classes of equal keys in a list, in the order of the first occurrences of the keys. -/
def classes {κ : Type u} [DecidableEq κ] (key : Nat → κ) (xs : List Nat) : List (List Nat) :=
  let keyed := xs.map fun x ↦ (key x, x)
  (keyed.map Prod.fst).eraseDups.map fun k ↦ (keyed.filter fun e ↦ e.1 = k).map Prod.snd

/-- Records `i` as the block of each listed element. -/
def assign (blockOf : Array Nat) (i : Nat) (xs : List Nat) : Array Nat :=
  xs.foldl (fun a x ↦ a.setIfInBounds x i) blockOf

/-- Adds a new block with the given elements, which leave their old block. -/
def addBlock (p : Partition) (xs : List Nat) : Partition where
  blocks := p.blocks.push xs
  blockOf := assign p.blockOf p.numBlocks xs

/-- Splits block `i` into its classes of equal keys; nothing changes if there is no block `i`. -/
def split {κ : Type u} [DecidableEq κ] (p : Partition) (i : Nat) (key : Nat → κ) : Partition :=
  match classes key ((p.block? i).getD []) with
  | [] => p
  | kept :: fresh =>
    fresh.foldl addBlock { p with blocks := p.blocks.setIfInBounds i kept }

/-- Splits block `i` and counts the new blocks; `none` if there is no block `i`. -/
def split? {κ : Type u} [DecidableEq κ] (p : Partition) (i : Nat) (key : Nat → κ) :
    Option (Nat × Partition) :=
  if i < p.numBlocks then
    let q := p.split i key
    some (q.numBlocks - p.numBlocks, q)
  else none

/-- Divides block `i` into the elements that satisfy `pred` and the others, and gives the number
of the new block if both occur; `none` if there is no block `i`. -/
def refine? (p : Partition) (i : Nat) (pred : Nat → Bool) : Option (Option Nat × Partition) :=
  (p.split? i fun x ↦ !pred x).map fun (added, q) ↦
    (if added = 0 then none else some (q.numBlocks - 1), q)

/-- Text of a partition: one line for each block. -/
def render (p : Partition) : String :=
  String.join <| p.blocks.toList.mapIdx fun i xs ↦
    "block[" ++ toString i ++ "]: " ++ String.join (xs.map fun x ↦ " " ++ toString x) ++ "\n"

/-- Adding a block adds one to their number. -/
@[simp]
theorem numBlocks_addBlock (p : Partition) (xs : List Nat) :
    (p.addBlock xs).numBlocks = p.numBlocks + 1 := by
  simp [addBlock, numBlocks]

/-- Adding blocks adds as many to their number. -/
theorem numBlocks_foldl_addBlock (p : Partition) (xss : List (List Nat)) :
    (xss.foldl addBlock p).numBlocks = p.numBlocks + xss.length := by
  induction xss generalizing p with
  | nil => rfl
  | cons xs xss ih =>
    rw [List.foldl_cons, ih, numBlocks_addBlock, List.length_cons]
    omega

end Partition

end LanguageTheory
