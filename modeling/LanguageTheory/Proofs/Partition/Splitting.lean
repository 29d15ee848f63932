import LanguageTheory.Partition
import Mathlib.Data.List.Nodup
import Mathlib.Data.List.Perm.Basic
import Mathlib.Data.Fintype.EquivFin

/-!
# Splitting the blocks of a partition

A split divides one block by a key and leaves the others as they are: afterwards two numbers share
a block when they did before and, if the block was that one, have the same key. A partition that
divides what another one divides, with no more blocks, divides nothing else.
-/

namespace LanguageTheory.Partition

universe u

variable {κ : Type u} [DecidableEq κ] {p q : Partition} {n i j x y : Nat}

/-! ### Classes of equal keys -/

section Classes

variable {key : Nat → κ} {xs block : List Nat}

/-- There is a class for each key. -/
theorem classes_eq (key : Nat → κ) (xs : List Nat) :
    classes key xs = (xs.map key).eraseDups.map fun k ↦ xs.filter fun x ↦ key x = k := by
  unfold classes
  simp only [List.map_map, List.filter_map, Function.comp_def]
  simp only [List.map_id']

/-- A class has the elements with the key of one of them. -/
theorem mem_classes_iff :
    block ∈ classes key xs ↔ ∃ x ∈ xs, block = xs.filter fun y ↦ key y = key x := by
  simp only [classes_eq, List.mem_map, List.mem_eraseDups]
  constructor
  · rintro ⟨k, ⟨x, hx, rfl⟩, rfl⟩
    exact ⟨x, hx, rfl⟩
  · rintro ⟨x, hx, rfl⟩
    exact ⟨key x, ⟨x, hx, rfl⟩, rfl⟩

/-- The first class has the key of the first element, and the others divide the rest. -/
theorem classes_cons (key : Nat → κ) (x : Nat) (xs : List Nat) :
    classes key (x :: xs) = ((x :: xs).filter fun y ↦ key y = key x) ::
      classes key ((x :: xs).filter fun y ↦ !decide (key y = key x)) := by
  have hrest : ((x :: xs).filter fun y ↦ !decide (key y = key x)) =
      xs.filter fun y ↦ !(key y == key x) := List.filter_cons_of_neg (by simp)
  rw [classes_eq, List.map_cons, List.eraseDups_cons, List.map_cons, hrest, classes_eq,
    List.filter_map]
  congr 1
  refine List.map_congr_left fun k hk ↦ ?_
  rw [List.mem_eraseDups, List.mem_map] at hk
  obtain ⟨z, hz, rfl⟩ := hk
  have hne : key z ≠ key x := by simpa using (List.mem_filter.mp hz).2
  rw [List.filter_cons_of_neg (by simpa using hne.symm), List.filter_filter]
  refine List.filter_congr fun y _ ↦ ?_
  by_cases hy : key y = key z
  · simp [hy, hne]
  · simp [hy]

/-- The classes list every element once. -/
theorem flatten_classes (key : Nat → κ) (xs : List Nat) : (classes key xs).flatten.Perm xs := by
  induction hl : xs.length using Nat.strong_induction_on generalizing xs with
  | _ l ih =>
    cases xs with
    | nil => exact .refl _
    | cons x xs =>
      rw [classes_cons, List.flatten_cons]
      have hlt : ((x :: xs).filter fun y ↦ !decide (key y = key x)).length < l := by
        subst hl
        exact List.length_filter_lt_length_iff_exists.mpr ⟨x, List.mem_cons_self, by simp⟩
      have hrest := ih _ hlt _ rfl
      exact (hrest.append_left _).trans (List.filter_append_perm _ _)

/-- Two elements share a class when they have the same key. -/
theorem exists_mem_classes_iff :
    (∃ block ∈ classes key xs, x ∈ block ∧ y ∈ block) ↔ x ∈ xs ∧ y ∈ xs ∧ key x = key y := by
  constructor
  · rintro ⟨block, hb, hx, hy⟩
    obtain ⟨z, _, rfl⟩ := mem_classes_iff.mp hb
    have hx := List.mem_filter.mp hx
    have hy := List.mem_filter.mp hy
    exact ⟨hx.1, hy.1, (of_decide_eq_true hx.2).trans (of_decide_eq_true hy.2).symm⟩
  · rintro ⟨hx, hy, he⟩
    refine ⟨_, mem_classes_iff.mpr ⟨x, hx, rfl⟩, ?_, ?_⟩
    · exact List.mem_filter.mpr ⟨hx, decide_eq_true rfl⟩
    · exact List.mem_filter.mpr ⟨hy, decide_eq_true he.symm⟩

end Classes

/-! ### Shared blocks -/

/-- Two numbers share a block. -/
def SameBlock (p : Partition) (x y : Nat) : Prop := ∃ block ∈ p.blocks, x ∈ block ∧ y ∈ block

namespace WellFormed

variable (hp : p.WellFormed n)

include hp

/-- The numbers below the bound have a block. -/
theorem exists_blockOf?_iff : (∃ i, p.blockOf? x = some i) ↔ x < n := by
  rw [← hp.size_blockOf]
  constructor
  · rintro ⟨i, hi⟩
    exact (Array.getElem?_eq_some_iff.mp hi).1
  · intro hx
    exact ⟨_, Array.getElem?_eq_getElem hx⟩

/-- A recorded block is one of the blocks. -/
theorem lt_numBlocks (hx : p.blockOf? x = some i) : i < p.numBlocks := by
  obtain ⟨block, hb, _⟩ := (hp.blockOf_iff x i).mp hx
  exact (Array.getElem?_eq_some_iff.mp hb).1

/-- Each block has a first element. -/
theorem exists_first? (hi : i < p.numBlocks) :
    ∃ x, p.first? i = some x ∧ p.blockOf? x = some i := by
  have hb : p.block? i = some p.blocks[i] := Array.getElem?_eq_getElem hi
  obtain ⟨x, rest, hx⟩ := List.exists_cons_of_ne_nil (hp.ne_nil _ (Array.getElem_mem hi))
  refine ⟨x, ?_, (hp.blockOf_iff x i).mpr ⟨_, hb, by rw [hx]; exact List.mem_cons_self⟩⟩
  rw [first?, hb, hx]
  rfl

/-- Every block is recorded for some number. -/
theorem exists_blockOf?_eq (hi : i < p.numBlocks) : ∃ x, p.blockOf? x = some i :=
  (hp.exists_first? hi).imp fun _ ↦ And.right

/-- Two numbers share a block when the same block is recorded for both. -/
theorem sameBlock_iff : p.SameBlock x y ↔ ∃ i, p.blockOf? x = some i ∧ p.blockOf? y = some i := by
  constructor
  · rintro ⟨block, hb, hx, hy⟩
    obtain ⟨i, hi⟩ := Array.mem_iff_getElem?.mp hb
    exact ⟨i, (hp.blockOf_iff x i).mpr ⟨block, hi, hx⟩, (hp.blockOf_iff y i).mpr ⟨block, hi, hy⟩⟩
  · rintro ⟨i, hx, hy⟩
    obtain ⟨block, hb, hx⟩ := (hp.blockOf_iff x i).mp hx
    obtain ⟨block', hb', hy⟩ := (hp.blockOf_iff y i).mp hy
    cases hb.symm.trans hb'
    exact ⟨block, Array.mem_of_getElem? hb, hx, hy⟩

/-- Numbers below the bound share a block when their recorded blocks are equal. -/
theorem sameBlock_iff_of_lt (hx : x < n) : p.SameBlock x y ↔ p.blockOf? x = p.blockOf? y := by
  obtain ⟨i, hi⟩ := hp.exists_blockOf?_iff.mpr hx
  rw [hp.sameBlock_iff, hi]
  constructor
  · rintro ⟨j, hj, hy⟩
    exact hj.trans hy.symm
  · intro h
    exact ⟨i, rfl, h.symm⟩

/-- Numbers that share a block are below the bound. -/
theorem lt_of_sameBlock (h : p.SameBlock x y) : x < n ∧ y < n := by
  obtain ⟨i, hx, hy⟩ := hp.sameBlock_iff.mp h
  exact ⟨hp.exists_blockOf?_iff.mp ⟨i, hx⟩, hp.exists_blockOf?_iff.mp ⟨i, hy⟩⟩

/-- The elements that are not alone in their blocks are below the bound. -/
theorem lt_of_mem_shared (hx : x ∈ p.shared) : x < n := by
  obtain ⟨block, hblock, hxb⟩ := List.mem_flatten.mp hx
  have hlisted := List.mem_flatten.mpr ⟨block, List.mem_of_mem_filter hblock, hxb⟩
  exact List.mem_range.mp (hp.perm.mem_iff.mp hlisted)

end WellFormed

/-- A partition is well formed when its blocks list each number once, in increasing order, and the
blocks of the listed numbers are recorded. -/
theorem WellFormed.of_listed (hperm : p.blocks.toList.flatten.Perm (List.range n))
    (hne : ∀ block ∈ p.blocks, block ≠ []) (hinc : ∀ block ∈ p.blocks, block.Pairwise (· < ·))
    (hsize : p.blockOf.size = n)
    (hlisted : ∀ i block, p.block? i = some block → ∀ x ∈ block, p.blockOf? x = some i) :
    p.WellFormed n := by
  refine ⟨hperm, hne, hinc, hsize, fun x i ↦ ⟨fun hx ↦ ?_, fun ⟨block, hb, hx⟩ ↦ ?_⟩⟩
  · have hlt : x < n := hsize ▸ (Array.getElem?_eq_some_iff.mp hx).1
    obtain ⟨block, hb, hxb⟩ := List.mem_flatten.mp (hperm.mem_iff.mpr (List.mem_range.mpr hlt))
    obtain ⟨j, hj⟩ := Array.mem_iff_getElem?.mp (Array.mem_toList_iff.mp hb)
    cases hx.symm.trans (hlisted j block hj x hxb)
    exact ⟨block, hj, hxb⟩
  · exact hlisted i block hb x hx

/-- The partition with a single block is well formed. -/
theorem wellFormed_trivial (n : Nat) : (trivial n).WellFormed n := by
  have hblocks : ∀ block ∈ (trivial n).blocks, block = List.range n ∧ n ≠ 0 := by
    intro block hb
    unfold trivial at hb
    split at hb
    · cases Array.not_mem_empty _ hb
    · next hn => exact ⟨Array.mem_singleton.mp hb, hn⟩
  apply WellFormed.of_listed
  · unfold trivial
    split
    · next hn => rw [hn]; exact .refl _
    · simp
  · intro block hb
    obtain ⟨rfl, hn⟩ := hblocks block hb
    simpa using hn
  · intro block hb
    rw [(hblocks block hb).1]
    exact List.pairwise_lt_range
  · exact Array.size_replicate
  · intro i block hb x hx
    obtain ⟨rfl, hn⟩ := hblocks block (Array.mem_of_getElem? hb)
    have hi : i = 0 := by
      have hlt := (Array.getElem?_eq_some_iff.mp hb).1
      simp only [trivial, hn, if_false, Array.size_singleton] at hlt
      omega
    have hx : x < n := List.mem_range.mp hx
    simp [blockOf?, trivial, hx, hi]

/-- In the partition with a single block all numbers share it. -/
theorem sameBlock_trivial_iff : (trivial n).SameBlock x y ↔ x < n ∧ y < n := by
  constructor
  · exact (wellFormed_trivial n).lt_of_sameBlock
  · rintro ⟨hx, hy⟩
    refine ⟨List.range n, ?_, List.mem_range.mpr hx, List.mem_range.mpr hy⟩
    have hn : n ≠ 0 := by omega
    simp [trivial, hn]

/-! ### Added blocks -/

/-- The listed elements get the given block and the others keep theirs. -/
theorem getElem?_assign (a : Array Nat) (i : Nat) (xs : List Nat) (x : Nat) :
    (assign a i xs)[x]? = if x ∈ xs ∧ x < a.size then some i else a[x]? := by
  induction xs generalizing a with
  | nil => simp [assign]
  | cons y xs ih =>
    have hsize : (a.setIfInBounds y i).size = a.size := Array.size_setIfInBounds
    change (assign (a.setIfInBounds y i) i xs)[x]? = _
    rw [ih, hsize, Array.getElem?_setIfInBounds]
    by_cases hx : x < a.size
    · by_cases hxy : y = x
      · simp [hx, hxy]
      · simp [hx, hxy, Ne.symm hxy]
    · simp +contextual [hx]

/-- Assigning a block changes no size. -/
theorem size_assign (a : Array Nat) (i : Nat) (xs : List Nat) : (assign a i xs).size = a.size := by
  induction xs generalizing a with
  | nil => rfl
  | cons y xs ih =>
    change (assign (a.setIfInBounds y i) i xs).size = _
    rw [ih, Array.size_setIfInBounds]

/-- Added blocks come last. -/
theorem toList_blocks_foldl_addBlock (p : Partition) (xss : List (List Nat)) :
    (xss.foldl addBlock p).blocks.toList = p.blocks.toList ++ xss := by
  induction xss generalizing p with
  | nil => simp
  | cons xs xss ih =>
    rw [List.foldl_cons, ih, addBlock, Array.toList_push, List.append_assoc]
    rfl

/-- Added blocks add no numbers. -/
theorem size_blockOf_foldl_addBlock (p : Partition) (xss : List (List Nat)) :
    (xss.foldl addBlock p).blockOf.size = p.blockOf.size := by
  induction xss generalizing p with
  | nil => rfl
  | cons xs xss ih => rw [List.foldl_cons, ih, addBlock, size_assign]

/-- Blocks of numbers that were not listed are recorded, and the old records of listed numbers are
kept. -/
theorem listed_foldl_addBlock {xss : List (List Nat)}
    (hlisted : ∀ i block, p.block? i = some block → ∀ x ∈ block, p.blockOf? x = some i)
    (hnodup : (p.blocks.toList ++ xss).flatten.Nodup)
    (hlt : ∀ x ∈ xss.flatten, x < p.blockOf.size) :
    ∀ i block, (xss.foldl addBlock p).block? i = some block →
      ∀ x ∈ block, (xss.foldl addBlock p).blockOf? x = some i := by
  induction xss generalizing p with
  | nil => exact hlisted
  | cons xs xss ih =>
    rw [List.foldl_cons]
    apply ih
    · intro i block hb x hx
      have hrecord : (p.addBlock xs).blockOf? x =
          if x ∈ xs ∧ x < p.blockOf.size then some p.numBlocks else p.blockOf? x :=
        getElem?_assign _ _ _ _
      rw [hrecord]
      rw [block?, addBlock, Array.getElem?_push] at hb
      split at hb
      · next hi =>
        cases hb
        rw [if_pos ⟨hx, hlt x (by simp [hx])⟩, hi]
        rfl
      · have hnew : x ∉ xs := by
          rw [List.flatten_append, List.flatten_cons] at hnodup
          have hold : x ∈ p.blocks.toList.flatten :=
            List.mem_flatten.mpr ⟨block, Array.mem_toList_iff.mpr (Array.mem_of_getElem? hb), hx⟩
          exact fun hxs ↦ (List.nodup_append.mp hnodup).2.2 x hold x
            (List.mem_append_left _ hxs) rfl
        rw [if_neg fun h ↦ hnew h.1]
        exact hlisted i block hb x hx
    · rwa [addBlock, Array.toList_push, List.append_assoc]
    · intro x hx
      rw [addBlock, size_assign]
      exact hlt x (by rw [List.flatten_cons]; exact List.mem_append_right _ hx)

/-! ### Splits -/

section Split

variable (key : Nat → κ) {block : List Nat}

/-- Nothing changes if there is no such block. -/
theorem split_of_block?_eq_none (hb : p.block? i = none) : p.split i key = p := by
  unfold split
  rw [hb]
  rfl

/-- A block with elements has a first class, which takes its place, and the others are added. -/
theorem exists_split_eq (hb : p.block? i = some block) (hne : block ≠ []) :
    ∃ kept fresh, classes key block = kept :: fresh ∧ p.split i key =
      fresh.foldl addBlock { p with blocks := p.blocks.setIfInBounds i kept } := by
  obtain ⟨x, xs, rfl⟩ := List.exists_cons_of_ne_nil hne
  refine ⟨_, _, classes_cons key x xs, ?_⟩
  unfold split
  rw [hb, Option.getD_some, classes_cons]

/-- A single class has all elements. -/
theorem eq_of_classes_eq_singleton {kept : List Nat} (h : classes key block = [kept]) :
    kept = block := by
  cases block with
  | nil => cases h
  | cons x xs =>
    rw [classes_cons, List.cons.injEq] at h
    obtain ⟨rfl, hrest⟩ := h
    refine List.filter_eq_self.mpr fun y hy ↦ decide_eq_true ?_
    refine Classical.byContradiction fun hne ↦ ?_
    -- The class of an element with another key would be a second one.
    have hother : y ∈ (x :: xs).filter fun y ↦ !decide (key y = key x) :=
      List.mem_filter.mpr ⟨hy, by simpa using hne⟩
    have hlisted := (flatten_classes key _).mem_iff.mpr hother
    rw [hrest] at hlisted
    exact List.not_mem_nil hlisted

/-- Nothing changes if all elements of the block are in one class. -/
theorem split_eq_self {kept : List Nat} (hb : p.block? i = some block)
    (h : classes key block = [kept]) : p.split i key = p := by
  obtain ⟨hi, hget⟩ := Array.getElem?_eq_some_iff.mp hb
  unfold split
  rw [hb, Option.getD_some, h, eq_of_classes_eq_singleton key h]
  simp [Array.setIfInBounds, hi, ← hget]

/-- A split keeps the other blocks. -/
theorem block?_split_of_ne (hj : j < p.numBlocks) (hij : j ≠ i) :
    (p.split i key).block? j = p.block? j := by
  unfold split
  split
  · rfl
  · next kept fresh _ =>
    have hlength : j < (p.blocks.toList.set i kept).length := by
      rw [List.length_set, Array.length_toList]
      exact hj
    rw [block?, ← Array.getElem?_toList, toList_blocks_foldl_addBlock,
      Array.toList_setIfInBounds, List.getElem?_append_left hlength, List.getElem?_set_ne hij.symm,
      Array.getElem?_toList]
    rfl

/-- A split removes no block. -/
theorem numBlocks_le_split (p : Partition) (i : Nat) :
    p.numBlocks ≤ (p.split i key).numBlocks := by
  unfold split
  split
  · exact Nat.le_refl _
  · rw [numBlocks_foldl_addBlock]
    refine Nat.le_trans (Nat.le_of_eq ?_) (Nat.le_add_right _ _)
    exact Array.size_setIfInBounds.symm

/-- A split replaces a block by its classes. -/
theorem toList_blocks_split_perm (hb : p.block? i = some block) (hne : block ≠ []) :
    (p.split i key).blocks.toList.Perm (classes key block ++ p.blocks.toList.eraseIdx i) := by
  obtain ⟨kept, fresh, hclasses, hsplit⟩ := exists_split_eq key hb hne
  have hi : i < p.blocks.toList.length := by simpa using (Array.getElem?_eq_some_iff.mp hb).1
  rw [hsplit, toList_blocks_foldl_addBlock, Array.toList_setIfInBounds, hclasses]
  exact ((List.set_perm_cons_eraseIdx hi kept).append_right fresh).trans
    (List.perm_append_comm.cons kept)

/-- A block and the others are all blocks. -/
theorem cons_eraseIdx_perm (hb : p.block? i = some block) :
    (block :: p.blocks.toList.eraseIdx i).Perm p.blocks.toList := by
  obtain ⟨hi, rfl⟩ := Array.getElem?_eq_some_iff.mp hb
  exact List.getElem_cons_eraseIdx_perm (l := p.blocks.toList) hi

/-- The blocks after a split are classes of the block that is split, and old ones. -/
theorem mem_classes_or_mem_of_mem_split (hb : p.block? i = some block) (hne : block ≠ [])
    {other : List Nat} (h : other ∈ (p.split i key).blocks) :
    other ∈ classes key block ∨ other ∈ p.blocks := by
  rw [← Array.mem_toList_iff, (toList_blocks_split_perm key hb hne).mem_iff, List.mem_append] at h
  exact h.imp_right fun h ↦ Array.mem_toList_iff.mp (List.mem_of_mem_eraseIdx h)

/-- A split keeps the numbers that are listed. -/
theorem flatten_split_perm (hb : p.block? i = some block) (hne : block ≠ []) :
    (p.split i key).blocks.toList.flatten.Perm p.blocks.toList.flatten := by
  have hclasses := (flatten_classes key block).append_right (p.blocks.toList.eraseIdx i).flatten
  rw [← List.flatten_append] at hclasses
  exact (toList_blocks_split_perm key hb hne).flatten.trans
    (hclasses.trans (cons_eraseIdx_perm hb).flatten)

/-- The records of a block are right for a part of it in its place. -/
theorem WellFormed.listed_replace (hp : p.WellFormed n) (hb : p.block? i = some block)
    {part : List Nat} (hpart : ∀ x ∈ part, x ∈ block) {other : List Nat}
    (h : (p.blocks.setIfInBounds i part)[j]? = some other) (hx : x ∈ other) :
    p.blockOf? x = some j := by
  rw [Array.getElem?_setIfInBounds] at h
  split at h
  · next hij =>
    subst hij
    rw [if_pos (Array.getElem?_eq_some_iff.mp hb).1] at h
    cases h
    exact (hp.blockOf_iff x i).mpr ⟨block, hb, hpart x hx⟩
  · exact (hp.blockOf_iff x j).mpr ⟨other, h, hx⟩

/-- The members of a block are recorded. -/
theorem WellFormed.lt_size_of_mem (hp : p.WellFormed n) (hb : p.block? i = some block)
    (hx : x ∈ block) : x < p.blockOf.size :=
  (Array.getElem?_eq_some_iff.mp ((hp.blockOf_iff x i).mpr ⟨block, hb, hx⟩)).1

/-- A split keeps a partition well formed. -/
theorem WellFormed.split (hp : p.WellFormed n) (i : Nat) :
    (p.split i key).WellFormed n := by
  cases hb : p.block? i with
  | none => rwa [split_of_block?_eq_none key hb]
  | some block =>
    have hmem : block ∈ p.blocks := Array.mem_of_getElem? hb
    have hne := hp.ne_nil block hmem
    have hperm := (flatten_split_perm key hb hne).trans hp.perm
    obtain ⟨kept, fresh, hclasses, hsplit⟩ := exists_split_eq key hb hne
    apply WellFormed.of_listed hperm
    · intro other hother
      rcases mem_classes_or_mem_of_mem_split key hb hne hother with hother | hother
      · obtain ⟨x, hx, rfl⟩ := mem_classes_iff.mp hother
        exact List.ne_nil_of_mem (List.mem_filter.mpr ⟨hx, decide_eq_true rfl⟩)
      · exact hp.ne_nil other hother
    · intro other hother
      rcases mem_classes_or_mem_of_mem_split key hb hne hother with hother | hother
      · obtain ⟨x, _, rfl⟩ := mem_classes_iff.mp hother
        exact (hp.increasing block hmem).filter _
      · exact hp.increasing other hother
    · rw [hsplit, size_blockOf_foldl_addBlock]
      exact hp.size_blockOf
    · have hsub : ∀ x ∈ (kept :: fresh).flatten, x ∈ block := fun x hx ↦
        (flatten_classes key block).mem_iff.mp (hclasses ▸ hx)
      rw [List.flatten_cons] at hsub
      rw [hsplit]
      apply listed_foldl_addBlock
      · exact fun _ _ hj _ hx ↦
          hp.listed_replace hb (fun x hx ↦ hsub x (List.mem_append_left _ hx)) hj hx
      · have hnodup := hperm.nodup_iff.mpr List.nodup_range
        rwa [hsplit, toList_blocks_foldl_addBlock] at hnodup
      · exact fun x hx ↦ hp.lt_size_of_mem hb (hsub x (List.mem_append_right _ hx))

/-- After a split two numbers share a block when they did before and, in the block that is split,
have the same key. -/
theorem WellFormed.sameBlock_split_iff (hp : p.WellFormed n) :
    (p.split i key).SameBlock x y ↔
      p.SameBlock x y ∧ (p.blockOf? x = some i → key x = key y) := by
  cases hb : p.block? i with
  | none =>
    have hx : p.blockOf? x ≠ some i := by
      intro hx
      obtain ⟨block, hb', _⟩ := (hp.blockOf_iff x i).mp hx
      cases hb.symm.trans hb'
    rw [split_of_block?_eq_none key hb]
    exact ⟨fun h ↦ ⟨h, fun hx' ↦ absurd hx' hx⟩, And.left⟩
  | some block =>
    have hne := hp.ne_nil block (Array.mem_of_getElem? hb)
    have hblocks := cons_eraseIdx_perm hb
    have hsplit := toList_blocks_split_perm key hb hne
    have hrecord : p.blockOf? x = some i ↔ x ∈ block := by
      rw [hp.blockOf_iff]
      simp only [hb, Option.some.injEq, exists_eq_left']
    -- The block that is split and the others have no number in common.
    have hdisjoint : x ∈ block → ¬ ∃ b ∈ p.blocks.toList.eraseIdx i, x ∈ b ∧ y ∈ b := by
      rintro hx ⟨b, hb, hxb, _⟩
      have hnodup := (hblocks.flatten.trans hp.perm).nodup_iff.mpr List.nodup_range
      rw [List.flatten_cons] at hnodup
      exact (List.nodup_append.mp hnodup).2.2 x hx x (List.mem_flatten.mpr ⟨b, hb, hxb⟩) rfl
    have hold : p.SameBlock x y ↔
        (x ∈ block ∧ y ∈ block) ∨ ∃ b ∈ p.blocks.toList.eraseIdx i, x ∈ b ∧ y ∈ b := by
      simp only [SameBlock, ← Array.mem_toList_iff, ← hblocks.mem_iff, List.exists_mem_cons_iff]
    have hnew : (p.split i key).SameBlock x y ↔ (x ∈ block ∧ y ∈ block ∧ key x = key y) ∨
        ∃ b ∈ p.blocks.toList.eraseIdx i, x ∈ b ∧ y ∈ b := by
      simp only [SameBlock, ← Array.mem_toList_iff, hsplit.mem_iff, List.mem_append, or_and_right,
        exists_or, exists_mem_classes_iff]
    rw [hnew, hold, hrecord]
    by_cases hx : x ∈ block
    · simp only [hx, hdisjoint hx, true_and, or_false, forall_const]
    · simp only [hx, false_and, false_or, false_implies, and_true]

end Split

/-! ### Finer partitions -/

section Finer

variable (hp : p.WellFormed n)

include hp

/-- The block of a number below the bound, as one of finitely many. -/
private theorem exists_fin_blockOf? (hx : x < n) :
    ∃ i : Fin p.numBlocks, p.blockOf? x = some i.val := by
  obtain ⟨i, hi⟩ := hp.exists_blockOf?_iff.mpr hx
  exact ⟨⟨i, hp.lt_numBlocks hi⟩, hi⟩

omit hp in
/-- A map onto at least as many numbers takes none twice. -/
private theorem injective_of_surjective {m : Nat} {f : Fin m → Fin n}
    (hf : Function.Surjective f) (hle : m ≤ n) : Function.Injective f := by
  have hcard := Fintype.card_le_of_surjective f hf
  rw [Fintype.card_fin, Fintype.card_fin] at hcard
  refine ((Fintype.bijective_iff_surjective_and_card f).mpr ⟨hf, ?_⟩).1
  rw [Fintype.card_fin, Fintype.card_fin]
  exact Nat.le_antisymm hle hcard

/-- In a partition with as many blocks as numbers, no two numbers share a block. -/
theorem WellFormed.eq_of_sameBlock (hle : n ≤ p.numBlocks) (h : p.SameBlock x y) : x = y := by
  have hblock (z : Fin n) := exists_fin_blockOf? hp z.isLt
  choose f hf using hblock
  have hsurjective : Function.Surjective f := by
    intro j
    obtain ⟨z, hz⟩ := hp.exists_blockOf?_eq j.isLt
    have hzn := hp.exists_blockOf?_iff.mp ⟨_, hz⟩
    exact ⟨⟨z, hzn⟩, Fin.ext (Option.some.inj ((hf ⟨z, hzn⟩).symm.trans hz))⟩
  obtain ⟨hx, hy⟩ := hp.lt_of_sameBlock h
  have hxy : f ⟨x, hx⟩ = f ⟨y, hy⟩ := by
    rw [hp.sameBlock_iff_of_lt hx] at h
    exact Fin.ext (Option.some.inj ((hf ⟨x, hx⟩).symm.trans (h.trans (hf ⟨y, hy⟩))))
  exact congrArg Fin.val (injective_of_surjective hsurjective hle hxy)

/-- A finer partition with no more blocks has the same blocks. -/
theorem WellFormed.sameBlock_of_finer (hq : q.WellFormed n)
    (hfiner : ∀ x y, q.SameBlock x y → p.SameBlock x y) (hle : q.numBlocks ≤ p.numBlocks)
    (h : p.SameBlock x y) : q.SameBlock x y := by
  have hinside (i : Fin q.numBlocks) :
      ∃ j : Fin p.numBlocks, ∀ z, q.blockOf? z = some i.val → p.blockOf? z = some j.val := by
    obtain ⟨z, hz⟩ := hq.exists_blockOf?_eq i.isLt
    obtain ⟨j, hj⟩ := exists_fin_blockOf? hp (hq.exists_blockOf?_iff.mp ⟨_, hz⟩)
    refine ⟨j, fun z' hz' ↦ ?_⟩
    obtain ⟨k, hk, hk'⟩ := hp.sameBlock_iff.mp (hfiner z z' (hq.sameBlock_iff.mpr ⟨_, hz, hz'⟩))
    cases hj.symm.trans hk
    exact hk'
  choose f hf using hinside
  have hsurjective : Function.Surjective f := by
    intro j
    obtain ⟨z, hz⟩ := hp.exists_blockOf?_eq j.isLt
    obtain ⟨i, hi⟩ := exists_fin_blockOf? hq (hp.exists_blockOf?_iff.mp ⟨_, hz⟩)
    exact ⟨i, Fin.ext (Option.some.inj ((hf i z hi).symm.trans hz))⟩
  obtain ⟨hx, hy⟩ := hp.lt_of_sameBlock h
  obtain ⟨i, hi⟩ := exists_fin_blockOf? hq hx
  obtain ⟨j, hj⟩ := exists_fin_blockOf? hq hy
  have hij : f i = f j := by
    rw [hp.sameBlock_iff_of_lt hx] at h
    exact Fin.ext (Option.some.inj ((hf i x hi).symm.trans (h.trans (hf j y hj))))
  rw [injective_of_surjective hsurjective hle hij] at hi
  exact hq.sameBlock_iff.mpr ⟨j, hi, hj⟩

/-- There are no more blocks than numbers. -/
theorem WellFormed.numBlocks_le : p.numBlocks ≤ n := by
  have hsub : List.range p.numBlocks ⊆ p.blockOf.toList := by
    intro i hi
    obtain ⟨x, hx⟩ := hp.exists_blockOf?_eq (List.mem_range.mp hi)
    exact Array.mem_toList_iff.mpr (Array.mem_of_getElem? hx)
  have hlength := (List.nodup_range.subperm hsub).length_le
  rwa [List.length_range, Array.length_toList, hp.size_blockOf] at hlength

end Finer

/-! ### Keys that agree -/

section Congr

universe v

variable {κ' : Type v} [DecidableEq κ'] {key : Nat → κ} {key' : Nat → κ'}

/-- Classes depend only on which elements have equal keys. -/
theorem classes_congr {xs : List Nat} (h : ∀ x ∈ xs, ∀ y ∈ xs, key x = key y ↔ key' x = key' y) :
    classes key xs = classes key' xs := by
  induction hl : xs.length using Nat.strong_induction_on generalizing xs with
  | _ l ih =>
    cases xs with
    | nil => rfl
    | cons x xs =>
      have hx : ∀ y ∈ x :: xs, decide (key y = key x) = decide (key' y = key' x) :=
        fun y hy ↦ decide_eq_decide.mpr (h y hy x List.mem_cons_self)
      have hsame : (x :: xs).filter (fun y ↦ decide (key y = key x)) =
          (x :: xs).filter fun y ↦ decide (key' y = key' x) := List.filter_congr hx
      have hother : (x :: xs).filter (fun y ↦ !decide (key y = key x)) =
          (x :: xs).filter fun y ↦ !decide (key' y = key' x) :=
        List.filter_congr fun y hy ↦ congrArg not (hx y hy)
      have hlt : ((x :: xs).filter fun y ↦ !decide (key y = key x)).length < l := by
        subst hl
        exact List.length_filter_lt_length_iff_exists.mpr ⟨x, List.mem_cons_self, by simp⟩
      have hrest := ih _ hlt (fun y hy z hz ↦
        h y (List.mem_of_mem_filter hy) z (List.mem_of_mem_filter hz)) rfl
      rw [classes_cons, classes_cons, hsame, hrest, hother]

variable (hp : p.WellFormed n)
include hp

/-- The elements of the blocks are the numbers below the bound. -/
theorem WellFormed.lt_of_mem_block? {block : List Nat} (hb : p.block? i = some block)
    (hx : x ∈ block) : x < n :=
  hp.size_blockOf ▸ hp.lt_size_of_mem hb hx

/-- A split depends only on which numbers below the bound have equal keys. -/
theorem WellFormed.split_congr (h : ∀ x < n, ∀ y < n, key x = key y ↔ key' x = key' y) (i : Nat) :
    p.split i key = p.split i key' := by
  have hclasses : classes key ((p.block? i).getD []) = classes key' ((p.block? i).getD []) := by
    cases hb : p.block? i with
    | none => rfl
    | some block =>
      exact classes_congr fun x hx y hy ↦
        h x (hp.lt_of_mem_block? hb hx) y (hp.lt_of_mem_block? hb hy)
  unfold Partition.split
  rw [hclasses]

/-- Splits one after the other depend only on which numbers below the bound have equal keys. -/
theorem WellFormed.foldl_split_congr (h : ∀ x < n, ∀ y < n, key x = key y ↔ key' x = key' y)
    (is : List Nat) :
    is.foldl (fun q i ↦ q.split i key) p = is.foldl (fun q i ↦ q.split i key') p := by
  induction is generalizing p with
  | nil => rfl
  | cons i is ih => rw [List.foldl_cons, List.foldl_cons, ← hp.split_congr h i, ih (hp.split key i)]

end Congr

end LanguageTheory.Partition
