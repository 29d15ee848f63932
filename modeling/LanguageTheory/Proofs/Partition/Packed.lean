import LanguageTheory.Partition.Packed
import LanguageTheory.Proofs.Collections.Indexing
import LanguageTheory.Proofs.Collections.Table
import LanguageTheory.Proofs.Partition.Splitting
import Mathlib.Data.List.Induction

/-!
# Splits in one array

A split of a packed partition never fails on a block that there is, and what it leaves is packed
again. The classes are written into the piece of the block from the left to the right: the blocks
that are there stand clear of the places that are still to be written, and cover all others. Read
as lists, the blocks are what the split of a partition gives.
-/

namespace LanguageTheory.PackedPartition

universe u

/-! ### Classes in one pass -/

section Collect

variable {κ : Type u} [DecidableEq κ]

/-- One more element is added to those of its key. -/
private theorem collect_append (keyed : List (κ × Nat)) (e : κ × Nat) :
    collect (keyed ++ [e]) =
      (collect keyed).upsert e.1 fun found ↦ found.getD [] ++ [e.2] := List.foldl_append

/-- The keys are listed in the order of their first occurrences. -/
theorem keys_collect (keyed : List (κ × Nat)) :
    (collect keyed).keys = (keyed.map Prod.fst).eraseDups := by
  induction keyed using List.reverseRecOn with
  | nil => rfl
  | append_singleton keyed e ih =>
    have hkeys : (collect (keyed ++ [e])).keys = ((collect keyed).keySet.insert e.1).toList := by
      rw [collect_append, ← Table.keySet_upsert]
      rfl
    rw [hkeys, List.map_append, List.eraseDups_append, ← ih]
    by_cases he : e.1 ∈ (collect keyed).keys
    · have hold : [e.1].removeAll (keyed.map Prod.fst) = [] := by
        rw [ih, List.mem_eraseDups] at he
        simp [List.removeAll, he]
      rw [OrderedSet.insert_of_mem (s := (collect keyed).keySet) he, List.map_singleton, hold]
      exact (List.append_nil _).symm
    · have hnew : [e.1].removeAll (keyed.map Prod.fst) = [e.1] := by
        rw [ih, List.mem_eraseDups] at he
        simp [List.removeAll, he]
      rw [OrderedSet.toList_insert_of_notMem (s := (collect keyed).keySet) he, List.map_singleton,
        hnew]
      rfl

/-- The elements of a key are listed in their order. -/
theorem getD_get?_collect (keyed : List (κ × Nat)) (k : κ) :
    ((collect keyed).get? k).getD [] = (keyed.filter fun e ↦ e.1 = k).map Prod.snd := by
  induction keyed using List.reverseRecOn with
  | nil => rfl
  | append_singleton keyed e ih =>
    rw [collect_append, Table.get?_upsert, List.filter_append, List.map_append]
    by_cases he : k = e.1
    · subst he
      rw [if_pos rfl, Option.getD_some, ih, List.filter_cons_of_pos (by simp)]
      rfl
    · rw [if_neg he, ih, List.filter_cons_of_neg (by simpa using Ne.symm he)]
      simp

/-- The values of a table in the order of its keys. -/
theorem values_eq_map_keys {β : Type*} (t : Table κ β) (d : β) :
    t.values = t.keys.map fun k ↦ (t.get? k).getD d := by
  rw [Table.values, Table.keys, List.map_map]
  refine List.map_congr_left fun e he ↦ ?_
  rw [Function.comp_apply, Table.get?_eq_some_iff.mpr he, Option.getD_some]

/-- The classes that one pass collects are the classes of equal keys. -/
theorem values_collect (key : Nat → κ) (xs : List Nat) :
    (collect (xs.map fun x ↦ (key x, x))).values = Partition.classes key xs := by
  rw [values_eq_map_keys _ [], keys_collect]
  exact List.map_congr_left fun k _ ↦ getD_get?_collect _ k

end Collect

/-! ### Overwriting a piece -/

/-- A list with other elements in the places from `k` on. -/
def overwrite (l : List Nat) (k : Nat) (xs : List Nat) : List Nat :=
  l.take k ++ xs ++ l.drop (k + xs.length)

variable {l xs ys : List Nat} {k : Nat}

/-- Overwriting keeps the number of places. -/
theorem length_overwrite (h : k + xs.length ≤ l.length) :
    (overwrite l k xs).length = l.length := by
  simp only [overwrite, List.length_append, List.length_take, List.length_drop]
  omega

/-- Pieces are overwritten one after the other. -/
theorem overwrite_append (h : k + xs.length ≤ l.length) :
    overwrite l k (xs ++ ys) = overwrite (overwrite l k xs) (k + xs.length) ys := by
  have hk : (l.take k).length = k := List.length_take_of_le (by omega)
  have htake : (overwrite l k xs).take (k + xs.length) = l.take k ++ xs :=
    List.take_left' (by rw [List.length_append, hk])
  have hdrop : (overwrite l k xs).drop (k + xs.length + ys.length) =
      l.drop (k + xs.length + ys.length) := by
    rw [← List.drop_drop, overwrite, List.drop_left' (by rw [List.length_append, hk]),
      List.drop_drop]
  rw [overwrite, overwrite, htake, hdrop, List.length_append, ← Nat.add_assoc, ← List.append_assoc]

/-- One place is overwritten. -/
theorem set_eq_overwrite {x : Nat} (h : k < l.length) : l.set k x = overwrite l k [x] := by
  rw [List.set_eq_take_append_cons_drop, if_pos h, overwrite, List.append_assoc]
  rfl

/-- Overwriting a piece by the same elements in another order keeps the elements of the list. -/
theorem overwrite_perm (h : ((l.drop k).take xs.length).Perm xs) : (overwrite l k xs).Perm l := by
  have hl : l.take k ++ (l.drop k).take xs.length ++ l.drop (k + xs.length) = l := by
    rw [List.append_assoc, ← List.drop_drop, List.take_append_drop, List.take_append_drop]
  have hperm := (h.symm.append_left (l.take k)).append_right (l.drop (k + xs.length))
  rwa [hl] at hperm

/-- The piece has the elements that were written. -/
theorem take_drop_overwrite_self (h : k + xs.length ≤ l.length) :
    ((overwrite l k xs).drop k).take xs.length = xs := by
  have hk : (l.take k).length = k := List.length_take_of_le (by omega)
  rw [overwrite, List.append_assoc, List.drop_left' hk, List.take_left]

/-- Other places keep their elements. -/
theorem take_drop_overwrite {a b : Nat} (h : k + xs.length ≤ l.length)
    (hclear : b ≤ k ∨ k + xs.length ≤ a) :
    ((overwrite l k xs).drop a).take (b - a) = (l.drop a).take (b - a) := by
  have hk : (l.take k).length = k := List.length_take_of_le (by omega)
  refine List.ext_getElem? fun j ↦ ?_
  rw [List.getElem?_take, List.getElem?_take, List.getElem?_drop, List.getElem?_drop]
  split
  · rw [overwrite]
    rcases hclear with hb | ha
    · rw [List.append_assoc, List.getElem?_append_left (by omega),
        List.getElem?_take_of_lt (by omega)]
    · rw [List.getElem?_append_right (by rw [List.length_append, hk]; omega),
        List.getElem?_drop, List.length_append, hk]
      congr 1
      omega
  · rfl

/-! ### Writing -/

variable {p q : PackedPartition} {n i stop : Nat} {e : Extent}

/-- What an extent has, in terms of lists. -/
theorem elements_eq (p : PackedPartition) (e : Extent) :
    p.elements e = (p.segment.toList.drop e.start).take (e.stop - e.start) :=
  Array.toList_extract

/-- What `q` is when `xs` have been written into `p` from place `k` on, as elements of block `i`. -/
structure Writes (p : PackedPartition) (i k : Nat) (xs : List Nat) (q : PackedPartition) :
    Prop where
  extents : q.extents = p.extents
  segment : q.segment.toList = overwrite p.segment.toList k xs
  blockOf : q.blockOf = Partition.assign p.blockOf i xs

/-- Numbers that have a record are written where there are places for them. -/
theorem exists_write? (hk : k + xs.length ≤ p.segment.size) (hxs : ∀ x ∈ xs, x < p.blockOf.size) :
    ∃ q, p.write? i k xs = some q ∧ p.Writes i k xs q := by
  induction xs generalizing p k with
  | nil => exact ⟨p, rfl, rfl, by simp [overwrite], rfl⟩
  | cons x xs ih =>
    rw [List.length_cons] at hk
    obtain ⟨hx, hxs⟩ := List.forall_mem_cons.mp hxs
    let r : PackedPartition := { p with
      segment := p.segment.setIfInBounds k x
      blockOf := p.blockOf.setIfInBounds x i }
    have hput : p.put? i k x = some r := if_pos ⟨by omega, hx⟩
    have hsegment : r.segment.toList = overwrite p.segment.toList k [x] := by
      rw [Array.toList_setIfInBounds, set_eq_overwrite (by rw [Array.length_toList]; omega)]
    obtain ⟨q, hwrite, hq⟩ := ih (p := r) (k := k + 1)
      (by rw [Array.size_setIfInBounds]; omega) (by rwa [Array.size_setIfInBounds])
    refine ⟨q, ?_, hq.extents, ?_, hq.blockOf⟩
    · rw [write?, hput, Option.bind_some, hwrite]
    · have hfits : k + 1 ≤ p.segment.toList.length := by
        rw [Array.length_toList]
        omega
      have happend : overwrite p.segment.toList k ([x] ++ xs) =
          overwrite (overwrite p.segment.toList k [x]) (k + 1) xs := overwrite_append hfits
      rw [hq.segment, hsegment]
      exact happend.symm

/-- Writing keeps the number of places. -/
theorem Writes.size_segment (h : p.Writes i k xs q) (hk : k + xs.length ≤ p.segment.size) :
    q.segment.size = p.segment.size := by
  rw [← Array.length_toList, h.segment, length_overwrite hk, Array.length_toList]

/-- Writing keeps the number of records. -/
theorem Writes.size_blockOf (h : p.Writes i k xs q) : q.blockOf.size = p.blockOf.size := by
  rw [h.blockOf, Partition.size_assign]

/-- Numbers stand where they were written. -/
theorem Writes.elements_self (h : p.Writes i k xs q) (hk : k + xs.length ≤ p.segment.size) :
    q.elements ⟨k, k + xs.length⟩ = xs := by
  rw [elements_eq, h.segment, Nat.add_sub_cancel_left]
  exact take_drop_overwrite_self hk

/-- Places that have not been written keep their numbers. -/
theorem Writes.elements_of_apart (h : p.Writes i k xs q) (hk : k + xs.length ≤ p.segment.size)
    (he : e.Apart ⟨k, k + xs.length⟩) : q.elements e = p.elements e := by
  rw [elements_eq, elements_eq, h.segment]
  exact take_drop_overwrite hk he

/-! ### Places that are still to be written -/

/-- The blocks divide the places below `n`, except for those from `k` up to `stop`. -/
structure DividesBut (extents : Array Extent) (n k stop : Nat) : Prop where
  nonempty : ∀ e ∈ extents, e.start < e.stop
  within : ∀ e ∈ extents, e.stop ≤ n
  apart : ∀ (i j : Nat) (e f : Extent),
    extents[i]? = some e → extents[j]? = some f → i ≠ j → e.Apart f
  clear : ∀ e ∈ extents, e.Apart ⟨k, stop⟩
  covering : ∀ j < n, (k ≤ j ∧ j < stop) ∨ ∃ e ∈ extents, e.start ≤ j ∧ j < e.stop

/-- Being apart does not depend on the order. -/
theorem apart_comm {e f : Extent} : e.Apart f ↔ f.Apart e := or_comm

/-- A block that shrinks leaves the places behind it. -/
theorem WellFormed.dividesBut_shrink (hp : p.WellFormed n) (he : p.extents[i]? = some e)
    {m : Nat} (hm : e.start < m) (hle : m ≤ e.stop) :
    DividesBut (p.extents.setIfInBounds i ⟨e.start, m⟩) n m e.stop := by
  have hi : i < p.extents.size := (Array.getElem?_eq_some_iff.mp he).1
  have hget : ∀ j, (p.extents.setIfInBounds i ⟨e.start, m⟩)[j]? =
      if j = i then some ⟨e.start, m⟩ else p.extents[j]? := by
    intro j
    rw [Array.getElem?_setIfInBounds, if_pos hi]
    by_cases hj : j = i
    · rw [if_pos hj.symm, if_pos hj]
    · rw [if_neg (Ne.symm hj), if_neg hj]
  -- A member is the block that shrinks or another one, which is apart from that block.
  have hmember : ∀ f ∈ p.extents.setIfInBounds i ⟨e.start, m⟩,
      f = ⟨e.start, m⟩ ∨ f ∈ p.extents ∧ f.Apart e := by
    intro f hf
    obtain ⟨j, hj⟩ := Array.mem_iff_getElem?.mp hf
    rw [hget] at hj
    split at hj
    · exact Or.inl (Option.some.inj hj).symm
    · next hne => exact Or.inr ⟨Array.mem_of_getElem? hj, hp.apart j i f e hj he hne⟩
  constructor
  · intro f hf
    rcases hmember f hf with rfl | ⟨hf, _⟩
    · exact hm
    · exact hp.nonempty f hf
  · intro f hf
    rcases hmember f hf with rfl | ⟨hf, _⟩
    · exact hle.trans (hp.within e (Array.mem_of_getElem? he))
    · exact hp.within f hf
  · intro j j' f f' hf hf' hne
    rw [hget] at hf hf'
    split at hf
    · next hj =>
      rw [if_neg (hj ▸ Ne.symm hne)] at hf'
      cases hf
      exact (hp.apart i j' e f' he hf' (hj ▸ hne)).imp_left hle.trans
    · next hj =>
      split at hf'
      · cases hf'
        exact (hp.apart j i f e hf he hj).imp_right hle.trans
      · exact hp.apart j j' f f' hf hf' hne
  · intro f hf
    rcases hmember f hf with rfl | ⟨_, hf⟩
    · exact Or.inl (Nat.le_refl m)
    · exact hf.imp_left fun h ↦ h.trans hm.le
  · intro j hj
    obtain ⟨f, hf, hstart, hstop⟩ := hp.covering j hj
    obtain ⟨j', hj'⟩ := Array.mem_iff_getElem?.mp hf
    by_cases hi' : j' = i
    · subst hi'
      cases he.symm.trans hj'
      by_cases hjm : j < m
      · refine Or.inr ⟨⟨e.start, m⟩, Array.mem_of_getElem? (i := j') ?_, hstart, hjm⟩
        rw [hget, if_pos rfl]
      · exact Or.inl ⟨Nat.le_of_not_lt hjm, hstop⟩
    · refine Or.inr ⟨f, Array.mem_of_getElem? (i := j') ?_, hstart, hstop⟩
      rw [hget, if_neg hi', hj']

/-- A block that is added takes the first of the free places. -/
theorem DividesBut.push {extents : Array Extent} (h : DividesBut extents n k stop) {m : Nat}
    (hm : k < m) (hle : m ≤ stop) (hn : stop ≤ n) :
    DividesBut (extents.push ⟨k, m⟩) n m stop := by
  have hmember : ∀ {f : Extent}, f ∈ extents.push ⟨k, m⟩ → f ∈ extents ∨ f = ⟨k, m⟩ :=
    fun hf ↦ Array.mem_push.mp hf
  have hclear : ∀ {f : Extent}, f ∈ extents → f.Apart ⟨k, m⟩ := by
    intro f hf
    exact (h.clear f hf).imp_right hle.trans
  constructor
  · intro f hf
    rcases hmember hf with hf | rfl
    · exact h.nonempty f hf
    · exact hm
  · intro f hf
    rcases hmember hf with hf | rfl
    · exact h.within f hf
    · exact hle.trans hn
  · intro j j' f f' hf hf' hne
    rw [Array.getElem?_push] at hf hf'
    split at hf
    · next hj =>
      rw [if_neg (hj ▸ Ne.symm hne)] at hf'
      cases hf
      exact apart_comm.mp (hclear (Array.mem_of_getElem? hf'))
    · split at hf'
      · cases hf'
        exact hclear (Array.mem_of_getElem? hf)
      · exact h.apart j j' f f' hf hf' hne
  · intro f hf
    rcases hmember hf with hf | rfl
    · exact (h.clear f hf).imp_left fun hk ↦ hk.trans hm.le
    · exact Or.inl (Nat.le_refl m)
  · intro j hj
    rcases h.covering j hj with ⟨hk, hstop⟩ | ⟨f, hf, hcover⟩
    · by_cases hjm : j < m
      · exact Or.inr ⟨⟨k, m⟩, Array.mem_push_self, hk, hjm⟩
      · exact Or.inl ⟨Nat.le_of_not_lt hjm, hstop⟩
    · exact Or.inr ⟨f, Array.mem_push.mpr (Or.inl hf), hcover⟩

/-! ### Blocks as lists -/

/-- The members of an added block, seen as a list, are those that were written. -/
theorem unpack_of_writes_push (h : ({ p with extents := p.extents.push ⟨k, k + xs.length⟩ } :
      PackedPartition).Writes p.numBlocks k xs q) (hk : k + xs.length ≤ p.segment.size)
    (hclear : ∀ e ∈ p.extents, e.Apart ⟨k, k + xs.length⟩) :
    q.unpack = p.unpack.addBlock xs := by
  have hblocks : q.extents.map q.elements = (p.extents.map p.elements).push xs := by
    rw [h.extents, Array.map_push, h.elements_self hk]
    congr 1
    exact Array.map_congr_left fun e he ↦ h.elements_of_apart hk (hclear e he)
  have hrecords : q.blockOf = Partition.assign p.blockOf p.unpack.numBlocks xs := by
    rw [h.blockOf, numBlocks_unpack]
  rw [unpack, hblocks, hrecords]
  rfl

/-- Blocks are added where there are places for them. -/
theorem exists_addBlocks? {xss : List (List Nat)} (h : DividesBut p.extents n k stop)
    (hsize : p.segment.size = n) (hn : stop ≤ n) (hstop : k + xss.flatten.length = stop)
    (hne : ∀ xs ∈ xss, xs ≠ []) (hrecord : ∀ x ∈ xss.flatten, x < p.blockOf.size) :
    ∃ q, p.addBlocks? k xss = some q ∧ DividesBut q.extents n stop stop ∧
      q.segment.toList = overwrite p.segment.toList k xss.flatten ∧
      q.unpack = xss.foldl Partition.addBlock p.unpack := by
  induction xss generalizing p k with
  | nil =>
    obtain rfl : k = stop := hstop
    exact ⟨p, rfl, h, by simp [overwrite], rfl⟩
  | cons xs xss ih =>
    rw [List.flatten_cons, List.length_append] at hstop
    obtain ⟨hxs, hne⟩ := List.forall_mem_cons.mp hne
    have hpos : 0 < xs.length := List.length_pos_iff.mpr hxs
    have hk : k + xs.length ≤ p.segment.size := by omega
    let extended : PackedPartition := { p with extents := p.extents.push ⟨k, k + xs.length⟩ }
    obtain ⟨r, hwrite, hr⟩ := exists_write? (p := extended) (i := p.numBlocks) hk fun x hx ↦
      hrecord x (List.mem_flatten.mpr ⟨xs, List.mem_cons_self, hx⟩)
    have hrecords : r.blockOf.size = p.blockOf.size := hr.size_blockOf
    have hdivides : DividesBut r.extents n (k + xs.length) stop := by
      rw [hr.extents]
      exact h.push (by omega) (by omega) hn
    have hsegment : r.segment.size = n := (hr.size_segment hk).trans hsize
    obtain ⟨q, hadd, hq, hlist, hunpack⟩ := ih hdivides hsegment (by omega) hne fun x hx ↦
      hrecords ▸ hrecord x (List.mem_append_right xs hx)
    refine ⟨q, ?_, hq, ?_, ?_⟩
    · rw [addBlocks?]
      exact Option.bind_eq_some_iff.mpr ⟨r, hwrite, hadd⟩
    · rw [hlist, hr.segment, List.flatten_cons, overwrite_append hk]
    · rw [hunpack, List.foldl_cons, unpack_of_writes_push hr hk fun e he ↦
        (h.clear e he).imp_right (Nat.le_trans (by omega : k + xs.length ≤ stop))]

/-- The array has a place for each number. -/
theorem WellFormed.size_segment (hp : p.WellFormed n) : p.segment.size = n := by
  rw [← Array.length_toList, hp.perm.length_eq, List.length_range]

/-- A block has as many elements as places. -/
theorem WellFormed.length_elements (hp : p.WellFormed n) (he : e ∈ p.extents) :
    (p.elements e).length = e.stop - e.start := by
  have hwithin := hp.within e he
  have hsize := hp.size_segment
  rw [elements_eq, List.length_take, List.length_drop, Array.length_toList]
  omega

/-- A block is what stands at its places. -/
theorem block?_unpack (he : p.extents[i]? = some e) : p.unpack.block? i = some (p.elements e) := by
  rw [Partition.block?, unpack, Array.getElem?_map, he, Option.map_some]

/-- A class that is written into the piece of its block takes the place of the block. -/
theorem WellFormed.unpack_of_writes_shrink (hp : p.WellFormed n) (he : p.extents[i]? = some e)
    (hle : e.start + xs.length ≤ e.stop) (hxs : ∀ x ∈ xs, x ∈ p.elements e)
    (h : ({ p with extents := p.extents.setIfInBounds i ⟨e.start, e.start + xs.length⟩ } :
      PackedPartition).Writes i e.start xs q) :
    q.unpack = { p.unpack with blocks := p.unpack.blocks.setIfInBounds i xs } := by
  have hfits : e.start + xs.length ≤ p.segment.size := by
    have hwithin := hp.within e (Array.mem_of_getElem? he)
    rw [hp.size_segment]
    omega
  have hblocks : q.extents.map q.elements = (p.extents.map p.elements).setIfInBounds i xs := by
    refine Array.ext_getElem? fun j ↦ ?_
    rw [h.extents, Array.map_setIfInBounds, h.elements_self hfits, Array.getElem?_setIfInBounds,
      Array.getElem?_setIfInBounds, Array.size_map, Array.size_map]
    split
    · rfl
    · next hij =>
      rw [Array.getElem?_map, Array.getElem?_map]
      cases hj : p.extents[j]? with
      | none => rfl
      | some f =>
        have hapart := (hp.apart j i f e hj he (Ne.symm hij)).imp_right hle.trans
        exact congrArg some (h.elements_of_apart hfits hapart)
  have hrecords : q.blockOf = p.blockOf := by
    refine Array.ext_getElem? fun x ↦ ?_
    rw [h.blockOf, Partition.getElem?_assign]
    split
    · next hx =>
      exact ((hp.unpack.blockOf_iff x i).mpr ⟨_, block?_unpack he, hxs x hx.1⟩).symm
    · rfl
  rw [PackedPartition.unpack, hblocks, hrecords]
  rfl

/-- Classes that have the elements of a block are written into its piece. -/
theorem WellFormed.exists_divide? (hp : p.WellFormed n) (he : p.extents[i]? = some e)
    {kept : List Nat} {fresh : List (List Nat)} (hne : ∀ xs ∈ kept :: fresh, xs ≠ [])
    (hperm : (kept :: fresh).flatten.Perm (p.elements e)) :
    ∃ q, p.divide? i e.start kept fresh = some q ∧ DividesBut q.extents n e.stop e.stop ∧
      q.segment.toList.Perm (List.range n) ∧
      q.unpack = fresh.foldl Partition.addBlock
        { p.unpack with blocks := p.unpack.blocks.setIfInBounds i kept } := by
  obtain ⟨hkept, hne⟩ := List.forall_mem_cons.mp hne
  have hmem := Array.mem_of_getElem? he
  have hstop : e.start + kept.length + fresh.flatten.length = e.stop := by
    have hlength := hperm.length_eq
    have hlt := hp.nonempty e hmem
    rw [hp.length_elements hmem, List.flatten_cons, List.length_append] at hlength
    omega
  have hwithin := hp.within e hmem
  have hsize := hp.size_segment
  have hrecord : ∀ x ∈ (kept :: fresh).flatten, x < p.blockOf.size := fun x hx ↦
    hp.unpack.lt_size_of_mem (block?_unpack he) (hperm.mem_iff.mp hx)
  rw [List.flatten_cons] at hrecord hperm
  let shrunk : PackedPartition :=
    { p with extents := p.extents.setIfInBounds i ⟨e.start, e.start + kept.length⟩ }
  have hfits : e.start + kept.length ≤ shrunk.segment.size := by
    change _ ≤ p.segment.size
    omega
  obtain ⟨r, hwrite, hr⟩ := exists_write? (p := shrunk) (i := i) hfits fun x hx ↦
    hrecord x (List.mem_append_left _ hx)
  have hunpackr := hp.unpack_of_writes_shrink he (by omega)
    (fun x hx ↦ hperm.mem_iff.mp (List.mem_append_left _ hx)) hr
  have hdivides : DividesBut r.extents n (e.start + kept.length) e.stop := by
    rw [hr.extents]
    have hpos : 0 < kept.length := List.length_pos_iff.mpr hkept
    exact hp.dividesBut_shrink he (by omega) (by omega)
  have hsegment : r.segment.size = n := (hr.size_segment hfits).trans hsize
  have hrecords : r.blockOf.size = p.blockOf.size := hr.size_blockOf
  obtain ⟨q, hadd, hq, hlist, hunpack⟩ := exists_addBlocks? hdivides hsegment hwithin hstop hne
    fun x hx ↦ hrecords ▸ hrecord x (List.mem_append_right _ hx)
  refine ⟨q, Option.bind_eq_some_iff.mpr ⟨r, hwrite, hadd⟩, hq, ?_, hunpackr ▸ hunpack⟩
  -- Both writings together put the classes, one behind the other, in the place of the block.
  rw [hlist, hr.segment, ← overwrite_append hfits]
  refine (overwrite_perm ?_).trans hp.perm
  have hlength : e.stop - e.start = (kept ++ fresh.flatten).length := by
    rw [List.length_append]
    omega
  rw [← hlength]
  exact (elements_eq p e ▸ hperm).symm

/-! ### Splits -/

section Split

variable {κ : Type u} [DecidableEq κ] {key : Nat → κ} {key? : Nat → Option κ}

/-- A block that there is can be split: its classes are packed in its place, and seen as lists the
blocks are those of the split. -/
theorem WellFormed.exists_splitBy? (hp : p.WellFormed n) (hi : i < p.numBlocks)
    (hkey : ∀ x < n, key? x = some (key x)) :
    ∃ added q, p.splitBy? i key? = some (added, q) ∧ q.WellFormed n ∧
      q.unpack = p.unpack.split i key := by
  obtain ⟨e, he⟩ : ∃ e, p.extents[i]? = some e := ⟨_, Array.getElem?_eq_getElem hi⟩
  have hmem := Array.mem_of_getElem? he
  have hblock := block?_unpack he
  have helements : p.elements? e = some (p.elements e) := by
    refine if_pos ⟨(hp.nonempty e hmem).le, ?_⟩
    rw [hp.size_segment]
    exact hp.within e hmem
  have hkeyed : (p.elements e).mapM (fun x ↦ (key? x).map fun k ↦ (k, x)) =
      some ((p.elements e).map fun x ↦ (key x, x)) :=
    mapM_eq_some_map fun x hx ↦ by rw [hkey x (hp.unpack.lt_of_mem_block? hblock hx)]; rfl
  have hsplit : p.splitBy? i key? =
      p.arrange? i e.start (Partition.classes key (p.elements e)) := by
    rw [splitBy?, he, Option.bind_some, helements, Option.bind_some, hkeyed, Option.bind_some,
      values_collect]
  have hne := hp.unpack.ne_nil _ (Array.mem_of_getElem? hblock)
  obtain ⟨kept, fresh, hclasses, hunpack⟩ := Partition.exists_split_eq key hblock hne
  rw [hsplit, hclasses]
  cases fresh with
  | nil => exact ⟨0, p, rfl, hp, (Partition.split_eq_self key hblock hclasses).symm⟩
  | cons other rest =>
    have hperm := hclasses ▸ Partition.flatten_classes key (p.elements e)
    have hnonempty : ∀ xs ∈ kept :: other :: rest, xs ≠ [] := by
      intro xs hxs
      rw [← hclasses] at hxs
      obtain ⟨x, hx, rfl⟩ := Partition.mem_classes_iff.mp hxs
      exact List.ne_nil_of_mem (List.mem_filter.mpr ⟨hx, decide_eq_true rfl⟩)
    obtain ⟨q, hdivide, hq, hlist, hq'⟩ := hp.exists_divide? he hnonempty hperm
    have hwhole : q.unpack = p.unpack.split i key := hq'.trans hunpack.symm
    refine ⟨(other :: rest).length, q, Option.map_eq_some_iff.mpr ⟨q, hdivide, rfl⟩, ?_, hwhole⟩
    refine ⟨hwhole ▸ hp.unpack.split key i, hlist, hq.nonempty, hq.within, hq.apart, ?_⟩
    intro k hk
    exact (hq.covering k hk).resolve_left fun h ↦ absurd h.1 (Nat.not_le_of_lt h.2)

/-- A block that there is can be split by keys that all numbers have. -/
theorem WellFormed.exists_split? (hp : p.WellFormed n) (hi : i < p.numBlocks) (key : Nat → κ) :
    ∃ added q, p.split? i key = some (added, q) ∧ q.WellFormed n ∧
      q.unpack = p.unpack.split i key := hp.exists_splitBy? hi fun _ _ ↦ rfl

end Split

end LanguageTheory.PackedPartition
