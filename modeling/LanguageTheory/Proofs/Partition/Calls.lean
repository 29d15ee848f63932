import LanguageTheory.Proofs.Partition.Packed

/-!
# Packed partitions after any calls

Whatever splits are made of the packed partition with a single block, each of them on a block that
there is: the result is well formed, the next split does not fail either, and it replaces its block
by the classes of equal keys.
-/

namespace LanguageTheory

universe u

namespace Partition

variable {key : Nat → Bool} {xs : List Nat}

/-- There are at most two classes for a key with two values. -/
theorem length_classes_le_two (key : Nat → Bool) (xs : List Nat) :
    (classes key xs).length ≤ 2 := by
  cases xs with
  | nil => exact Nat.zero_le 2
  | cons x xs =>
    rw [classes_cons, List.length_cons]
    cases hrest : (x :: xs).filter fun y ↦ !decide (key y = key x) with
    | nil => exact Nat.le_succ 1
    | cons y ys =>
      have hother : ∀ z ∈ y :: ys, key z = !key x := by
        intro z hz
        have hne := (List.mem_filter.mp (hrest ▸ hz)).2
        revert hne
        cases key z <;> cases key x <;> decide
      have hnone : (y :: ys).filter (fun z ↦ !decide (key z = key y)) = [] := by
        refine List.filter_eq_nil_iff.mpr fun z hz ↦ ?_
        rw [hother z hz, hother y List.mem_cons_self]
        simp
      rw [classes_cons, hnone]
      exact Nat.le_refl 2

end Partition

namespace PackedPartition

variable {n i : Nat} {p q : PackedPartition}

/-- Packing all numbers into one block. -/
theorem unpack_trivial (n : Nat) : (trivial n).unpack = Partition.trivial n := by
  have hblocks : (trivial n).extents.map (trivial n).elements = (Partition.trivial n).blocks := by
    by_cases hn : n = 0
    · simp [trivial, Partition.trivial, hn]
    · have hwhole : (trivial n).elements ⟨0, n⟩ = List.range n := by
        rw [elements_eq, trivial, Array.toList_range, Nat.sub_zero, List.drop_zero]
        exact List.take_of_length_le (Nat.le_of_eq List.length_range)
      have hextents : (trivial n).extents = #[⟨0, n⟩] := if_neg hn
      rw [hextents, Partition.trivial, if_neg hn]
      simp [hwhole]
  rw [unpack, hblocks]
  rfl

/-- The packed partition with a single block is well formed. -/
theorem wellFormed_trivial (n : Nat) : (trivial n).WellFormed n := by
  have hmember : ∀ e ∈ (trivial n).extents, n ≠ 0 ∧ e = ⟨0, n⟩ := by
    intro e he
    unfold trivial at he
    split at he
    · cases Array.not_mem_empty _ he
    · next hn => exact ⟨hn, Array.mem_singleton.mp he⟩
  constructor
  · rw [unpack_trivial]
    exact Partition.wellFormed_trivial n
  · rw [trivial, Array.toList_range]
  · intro e he
    obtain ⟨hn, rfl⟩ := hmember e he
    exact Nat.pos_of_ne_zero hn
  · intro e he
    obtain ⟨_, rfl⟩ := hmember e he
    exact Nat.le_refl n
  · intro i j e f he hf hne
    have hn := (hmember e (Array.mem_of_getElem? he)).1
    have hi := (Array.getElem?_eq_some_iff.mp he).1
    have hj := (Array.getElem?_eq_some_iff.mp hf).1
    simp only [trivial, hn, if_false, List.size_toArray, List.length_cons, List.length_nil] at hi hj
    omega
  · intro k hk
    have hn : n ≠ 0 := by omega
    exact ⟨⟨0, n⟩, by simp [trivial, hn], Nat.zero_le k, hk⟩

/-! ### One call -/

/-- What a split of block `i` makes of the blocks: the class of its first element takes the place of
the block, and the other classes, in the order in which their keys occur first, come behind the old
blocks, which stay as they are. -/
def Splits {κ : Type u} [DecidableEq κ] (p : PackedPartition) (i : Nat) (key : Nat → κ)
    (added : Nat) (q : PackedPartition) : Prop :=
  ∃ first rest fresh, p.unpack.block? i = some (first :: rest) ∧
    let kept := (first :: rest).filter fun x ↦ key x = key first
    Partition.classes key (first :: rest) = kept :: fresh ∧
      q.unpack.blocks.toList = p.unpack.blocks.toList.set i kept ++ fresh ∧ added = fresh.length

section Split

variable {κ : Type u} [DecidableEq κ]

/-- A split of a block that there is splits the block. -/
theorem WellFormed.exists_splits (hp : p.WellFormed n) (hi : i < p.numBlocks) (key : Nat → κ) :
    ∃ added q, p.split? i key = some (added, q) ∧ q.WellFormed n ∧ p.Splits i key added q ∧
      p.unpack.split? i key = some (added, q.unpack) := by
  obtain ⟨added, q, hsplit, hq, hunpack⟩ := hp.exists_split? hi key
  have hblocks : i < p.unpack.numBlocks := by rwa [numBlocks_unpack]
  have hgrow := numBlocks_of_splitBy? hsplit
  refine ⟨added, q, hsplit, hq, ?_, ?_⟩
  · have hblock : p.unpack.block? i = some p.unpack.blocks[i] := Array.getElem?_eq_getElem hblocks
    have hne := hp.unpack.ne_nil _ (Array.mem_of_getElem? hblock)
    obtain ⟨first, rest, hfirst⟩ := List.exists_cons_of_ne_nil hne
    rw [hfirst] at hblock
    obtain ⟨kept, fresh, hclasses, hafter⟩ :=
      Partition.exists_split_eq key hblock (List.cons_ne_nil _ _)
    have hlist : q.unpack.blocks.toList = p.unpack.blocks.toList.set i kept ++ fresh := by
      rw [hunpack, hafter, Partition.toList_blocks_foldl_addBlock, Array.toList_setIfInBounds]
    have hlength := congrArg List.length hlist
    rw [List.length_append, List.length_set, Array.length_toList, Array.length_toList] at hlength
    change q.unpack.numBlocks = p.unpack.numBlocks + _ at hlength
    rw [numBlocks_unpack, numBlocks_unpack, hgrow] at hlength
    have hkept := (Partition.classes_cons key first rest).symm.trans hclasses
    obtain ⟨rfl, _⟩ := List.cons.inj hkept
    exact ⟨first, rest, fresh, hblock, hclasses, hlist, Nat.add_left_cancel hlength⟩
  · have hcount : q.unpack.numBlocks - p.unpack.numBlocks = added := by
      rw [numBlocks_unpack, numBlocks_unpack, hgrow, Nat.add_sub_cancel_left]
    rw [Partition.split?, if_pos hblocks, ← hunpack]
    exact congrArg (fun count ↦ some (count, q.unpack)) hcount

end Split

/-- A division of a block that there is splits the block by the truth value of the predicate, which
adds at most one block, the last one. -/
theorem WellFormed.exists_refine? (hp : p.WellFormed n) (hi : i < p.numBlocks) (pred : Nat → Bool) :
    ∃ added q, p.refine? i pred = some (if added = 0 then none else some p.numBlocks, q) ∧
      q.WellFormed n ∧ p.Splits i (fun x ↦ !pred x) added q ∧ added ≤ 1 ∧
      p.unpack.refine? i pred = some (if added = 0 then none else some p.numBlocks, q.unpack) := by
  obtain ⟨added, q, hsplit, hq, hsplits, hunpack⟩ := hp.exists_splits hi fun x ↦ !pred x
  have hgrow := numBlocks_of_splitBy? hsplit
  have hle : added ≤ 1 := by
    obtain ⟨first, rest, fresh, _, hclasses, _, rfl⟩ := hsplits
    have htwo := Partition.length_classes_le_two (fun x ↦ !pred x) (first :: rest)
    rw [hclasses, List.length_cons] at htwo
    omega
  have hanswer : (if added = 0 then none else some (q.numBlocks - 1)) =
      if added = 0 then none else some p.numBlocks := by
    split
    · rfl
    · rw [hgrow]
      exact congrArg some (by omega)
  refine ⟨added, q, ?_, hq, hsplits, hle, ?_⟩
  · rw [refine?, hsplit, ← hanswer]
    rfl
  · rw [Partition.refine?, hunpack, ← hanswer, ← numBlocks_unpack]
    rfl

/-! ### Any calls -/

/-- The packed partitions that calls make of the numbers below `n` in a single block. -/
inductive Constructible (n : Nat) : PackedPartition → Prop where
  | trivial : Constructible n (trivial n)
  | split {p q : PackedPartition} {κ : Type u} [DecidableEq κ] {i : Nat} {key : Nat → κ}
      {added : Nat} : Constructible n p → p.split? i key = some (added, q) → Constructible n q
  | refine {p q : PackedPartition} {i : Nat} {pred : Nat → Bool} {new : Option Nat} :
      Constructible n p → p.refine? i pred = some (new, q) → Constructible n q

/-- A split that is answered is one of a block that there is. -/
theorem lt_numBlocks_of_splitBy? {κ : Type u} [DecidableEq κ] {key? : Nat → Option κ}
    {answer : Nat × PackedPartition} (h : p.splitBy? i key? = some answer) : i < p.numBlocks := by
  obtain ⟨e, he, _⟩ := Option.bind_eq_some_iff.mp h
  exact (Array.getElem?_eq_some_iff.mp he).1

/-- Packed partitions are well formed after any calls. -/
theorem Constructible.wellFormed (h : Constructible.{u} n p) : p.WellFormed n := by
  induction h with
  | trivial => exact wellFormed_trivial n
  | @split p q κ _ i key added _ hsplit ih =>
    obtain ⟨_, _, hsplit', hq, _⟩ := ih.exists_splits (lt_numBlocks_of_splitBy? hsplit) key
    cases hsplit.symm.trans hsplit'
    exact hq
  | @refine p q i pred new _ hrefine ih =>
    obtain ⟨_, hsplit, _⟩ := Option.map_eq_some_iff.mp hrefine
    obtain ⟨_, _, hrefine', hq, _⟩ := ih.exists_refine? (lt_numBlocks_of_splitBy? hsplit) pred
    cases hrefine.symm.trans hrefine'
    exact hq

/-- After any calls the partition is well formed, and a call on a block that there is answers how
many blocks it adds, or which one. It replaces the block by the classes of equal keys and keeps the
other blocks, as the call on the blocks as lists does. -/
theorem Constructible.wellFormed_and_splits (h : Constructible.{u} n p) :
    p.WellFormed n ∧ ∀ i < p.numBlocks,
      (∀ {κ : Type u} [DecidableEq κ] (key : Nat → κ), ∃ added q,
        p.split? i key = some (added, q) ∧ p.Splits i key added q ∧
          p.unpack.split? i key = some (added, q.unpack)) ∧
      ∀ pred : Nat → Bool, ∃ added q,
        p.refine? i pred = some (if added = 0 then none else some p.numBlocks, q) ∧
          p.Splits i (fun x ↦ !pred x) added q ∧ added ≤ 1 ∧
          p.unpack.refine? i pred =
            some (if added = 0 then none else some p.numBlocks, q.unpack) := by
  refine ⟨h.wellFormed, fun i hi ↦ ⟨fun key ↦ ?_, fun pred ↦ ?_⟩⟩
  · obtain ⟨added, q, hsplit, _, hsplits, hunpack⟩ := h.wellFormed.exists_splits hi key
    exact ⟨added, q, hsplit, hsplits, hunpack⟩
  · obtain ⟨added, q, hrefine, _, hsplits, hle, hunpack⟩ := h.wellFormed.exists_refine? hi pred
    exact ⟨added, q, hrefine, hsplits, hle, hunpack⟩

/-- The numbers below ten, divided by their remainders by three. -/
def remainders : PackedPartition where
  extents := #[⟨0, 4⟩, ⟨4, 7⟩, ⟨7, 10⟩]
  segment := #[0, 3, 6, 9, 1, 4, 7, 2, 5, 8]
  blockOf := #[0, 1, 2, 0, 1, 2, 0, 1, 2, 0]

/-- The same, but that 4 has its own block, which stands before a block with a lower number. -/
def remaindersWithoutFour : PackedPartition where
  extents := #[⟨0, 4⟩, ⟨4, 6⟩, ⟨7, 10⟩, ⟨6, 7⟩]
  segment := #[0, 3, 6, 9, 1, 7, 4, 2, 5, 8]
  blockOf := #[0, 1, 2, 0, 3, 2, 0, 1, 2, 0]

/-- Two calls make the partition. -/
theorem constructible_remaindersWithoutFour : Constructible.{0} 10 remaindersWithoutFour := by
  have hsplit : (trivial 10).split? 0 (fun x ↦ x % 3) = some (2, remainders) := by decide
  have hrefine : remainders.refine? 1 (fun x ↦ x = 4) = some (some 3, remaindersWithoutFour) := by
    decide
  exact .refine (.split .trivial hsplit) hrefine

/-- A block behind which another one stands is split once more. -/
theorem wellFormed_and_splits_remaindersWithoutFour :
    Constructible.{0} 10 remaindersWithoutFour ∧ remaindersWithoutFour.WellFormed 10 ∧
      (∃ added q, remaindersWithoutFour.split? 0 (fun x ↦ x / 6) = some (added, q) ∧
        remaindersWithoutFour.Splits 0 (fun x ↦ x / 6) added q ∧
          remaindersWithoutFour.unpack.split? 0 (fun x ↦ x / 6) = some (added, q.unpack)) ∧
      remaindersWithoutFour.split? 0 (fun x ↦ x / 6) = some (1,
        { extents := #[⟨0, 2⟩, ⟨4, 6⟩, ⟨7, 10⟩, ⟨6, 7⟩, ⟨2, 4⟩]
          segment := #[0, 3, 6, 9, 1, 7, 4, 2, 5, 8]
          blockOf := #[0, 1, 2, 0, 3, 2, 4, 1, 2, 4] }) := by
  have h := Constructible.wellFormed_and_splits constructible_remaindersWithoutFour
  exact ⟨constructible_remaindersWithoutFour, h.1, (h.2 0 (by decide)).1 fun x ↦ x / 6, by decide⟩

end PackedPartition

end LanguageTheory
