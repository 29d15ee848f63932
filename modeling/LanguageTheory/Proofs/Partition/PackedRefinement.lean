import LanguageTheory.Partition.PackedRefinement
import LanguageTheory.Proofs.Partition.Calls
import LanguageTheory.Proofs.Partition.Refinement

/-!
# Refinement in one array

The rounds of refinement on a packed partition are those of refinement on lists of elements. No
lookup fails as long as the transition function stays among the states. A block of a single state is
passed over, which is what its split comes to, and the flag of a round tells whether there are more
blocks after it.
-/

namespace LanguageTheory.PackedRefinement

universe u

variable {n m i : Nat} {p : PackedPartition} {r : PackedRefinement} {delta : Nat → Nat → Nat}

/-! ### Visits of blocks -/

section Visits

variable {κ : Type u} [DecidableEq κ] {key : Nat → κ} {key? : Nat → Option κ}
  (hkey : ∀ x < n, key? x = some (key x))
include hkey

/-- A visit of a block leaves what its split leaves, also if the block has a single element. -/
theorem exists_visit? (hp : p.WellFormed n) (hi : i < p.numBlocks) (changed : Bool) :
    ∃ next, visit? key? (changed, p) i = some next ∧ next.2.WellFormed n ∧
      next.2.unpack = p.unpack.split i key := by
  obtain ⟨e, he⟩ : ∃ e, p.extents[i]? = some e := ⟨_, Array.getElem?_eq_getElem hi⟩
  have hsize : p.blockSize? i = some (e.stop - e.start) := congrArg (Option.map _) he
  rw [visit?, hsize, Option.bind_some]
  by_cases hlarge : 1 < e.stop - e.start
  · obtain ⟨added, q, hsplit, hq, hunpack⟩ := hp.exists_splitBy? hi hkey
    rw [if_pos hlarge, hsplit]
    exact ⟨_, rfl, hq, hunpack⟩
  · rw [if_neg hlarge]
    have hmem := Array.mem_of_getElem? he
    have hpos := hp.nonempty e hmem
    have hlength : (p.elements e).length = 1 := by
      rw [hp.length_elements hmem]
      omega
    obtain ⟨x, hx⟩ := List.length_eq_one_iff.mp hlength
    have hblock := PackedPartition.block?_unpack he
    rw [hx] at hblock
    have hclass : Partition.classes key [x] = [[x]] := by
      rw [Partition.classes_cons]
      simp [Partition.classes]
    exact ⟨_, rfl, hp, (Partition.split_eq_self key hblock hclass).symm⟩

/-- Visits of blocks leave what their splits leave. -/
theorem exists_foldlM_visit? {is : List Nat} (hp : p.WellFormed n)
    (his : ∀ i ∈ is, i < p.numBlocks) (changed : Bool) :
    ∃ next, is.foldlM (visit? key?) (changed, p) = some next ∧ next.2.WellFormed n ∧
      next.2.unpack = is.foldl (fun q i ↦ q.split i key) p.unpack := by
  induction is generalizing p changed with
  | nil => exact ⟨_, rfl, hp, rfl⟩
  | cons i is ih =>
    obtain ⟨hi, his⟩ := List.forall_mem_cons.mp his
    obtain ⟨⟨flag, q⟩, hvisit, hq, hunpack⟩ := exists_visit? hkey hp hi changed
    have hle := (flag_of_visit? hvisit).1
    obtain ⟨next, hvisits, hnext, hall⟩ := ih hq (fun j hj ↦ (his j hj).trans_le hle) flag
    rw [List.foldlM_cons, hvisit, List.foldl_cons, ← hunpack]
    exact ⟨next, hvisits, hnext, hall⟩

end Visits

/-! ### Rounds -/

/-- The signatures are found, and two states have equal ones when they do for lists of elements. -/
theorem exists_signature? (hp : p.WellFormed n) (hdelta : ∀ s < n, ∀ c < m, delta s c < n) :
    ∃ key : Nat → List Nat, (∀ s < n, signature? p.blockOf m delta s = some (key s)) ∧
      ∀ s < n, ∀ t < n, key s = key t ↔
        Refinement.signature p.unpack m delta s = Refinement.signature p.unpack m delta t := by
  have hrecord : ∀ s < n, ∀ c ∈ List.range m,
      p.blockOf[delta s c]? = some (p.blockOf[delta s c]?.getD 0) := by
    intro s hs c hc
    obtain ⟨b, hb⟩ := hp.unpack.exists_blockOf?_iff.mpr (hdelta s hs c (List.mem_range.mp hc))
    change p.blockOf[delta s c]? = some b at hb
    rw [hb, Option.getD_some]
  let key (s : Nat) : List Nat := (List.range m).map fun c ↦ p.blockOf[delta s c]?.getD 0
  have hsignature : ∀ s < n, Refinement.signature p.unpack m delta s = (key s).map some := by
    intro s hs
    rw [List.map_map]
    exact List.map_congr_left (hrecord s hs)
  refine ⟨key, fun s hs ↦ mapM_eq_some_map (hrecord s hs), fun s hs t ht ↦ ?_⟩
  rw [hsignature s hs, hsignature t ht]
  exact (List.map_injective_iff.mpr (Option.some_injective Nat)).eq_iff.symm

section Rounds

variable (hr : r.partition.WellFormed r.numStates)
  (hdelta : ∀ s < r.numStates, ∀ c < r.numSymbols, delta s c < r.numStates)
include hr hdelta

/-- A round does not fail and is the round on lists. Its flag is set when it splits a block. -/
theorem exists_round? : ∃ changed next, round? delta r = some (changed, next) ∧
    next.partition.WellFormed r.numStates ∧ next.unpack = Refinement.round delta r.unpack ∧
      (changed = true ↔ r.unpack.partition.numBlocks < next.unpack.partition.numBlocks) := by
  obtain ⟨key, hkey, hequal⟩ := exists_signature? hr hdelta
  obtain ⟨⟨changed, q⟩, hvisits, hq, hunpack⟩ :=
    exists_foldlM_visit? hkey hr (fun _ hi ↦ List.mem_range.mp hi) false
  have hflag := (flag_of_foldlM_visit? hvisits).2
  rw [hr.unpack.foldl_split_congr hequal, ← PackedPartition.numBlocks_unpack] at hunpack
  refine ⟨changed, _, Option.map_eq_some_iff.mpr ⟨_, hvisits, rfl⟩, hq, ?_, ?_⟩
  · exact congrArg (Refinement.mk r.numStates r.numSymbols · (r.rounds + 1)) hunpack
  · simpa [unpack] using hflag

/-- The rounds end without a failure, and are those on lists. -/
theorem exists_run? : ∃ next, run? delta r = some next ∧
    next.partition.WellFormed r.numStates ∧ next.unpack = Refinement.run delta r.unpack := by
  fun_induction run? delta r with
  | case1 r hlt hround =>
    obtain ⟨_, _, hfound, _⟩ := exists_round? hr hdelta
    cases hround.symm.trans hfound
  | case2 r hlt next hround ih =>
    have hblocks : r.unpack.partition.numBlocks < r.unpack.numStates := by
      rwa [← PackedPartition.numBlocks_unpack] at hlt
    obtain ⟨_, _, hfound, hnext, hunpack, hflag⟩ := exists_round? hr hdelta
    cases hround.symm.trans hfound
    have hstates : next.numStates = r.numStates := congrArg Refinement.numStates hunpack
    have hsymbols : next.numSymbols = r.numSymbols := congrArg Refinement.numSymbols hunpack
    rw [← hstates] at hnext
    obtain ⟨last, hrun, hlast, hall⟩ := ih hnext (by rwa [hstates, hsymbols])
    refine ⟨last, hrun, hstates ▸ hlast, ?_⟩
    have hgrow := hflag.mp rfl
    rw [hunpack] at hgrow hall
    rw [hall, Refinement.run.eq_1 delta r.unpack, if_pos hblocks]
    exact (if_pos hgrow).symm
  | case3 r hlt next hround =>
    have hblocks : r.unpack.partition.numBlocks < r.unpack.numStates := by
      rwa [← PackedPartition.numBlocks_unpack] at hlt
    obtain ⟨_, _, hfound, hnext, hunpack, hflag⟩ := exists_round? hr hdelta
    cases hround.symm.trans hfound
    refine ⟨next, rfl, hnext, ?_⟩
    have hstop := fun hgrow ↦ Bool.false_ne_true (hflag.mpr hgrow)
    rw [hunpack] at hstop
    rw [hunpack, Refinement.run, if_pos hblocks]
    exact (if_neg hstop).symm
  | case4 r hle =>
    rw [← PackedPartition.numBlocks_unpack] at hle
    refine ⟨r, rfl, hr, ?_⟩
    rw [Refinement.run]
    exact (if_neg hle).symm

end Rounds

/-- The first division does not fail and is the one on lists. -/
theorem exists_start? (n m : Nat) (isFinal : Nat → Bool) : ∃ r, start? n m isFinal = some r ∧
    r.partition.WellFormed n ∧ r.unpack = Refinement.start n m isFinal := by
  have htrivial := PackedPartition.wellFormed_trivial n
  by_cases hn : 0 < n
  · have hblock : 0 < (PackedPartition.trivial n).numBlocks := by
      rw [PackedPartition.numBlocks, PackedPartition.trivial, if_neg (Nat.ne_of_gt hn)]
      exact Nat.one_pos
    obtain ⟨added, q, hsplit, hq, hunpack⟩ := htrivial.exists_split? hblock fun s ↦ !isFinal s
    rw [PackedPartition.unpack_trivial] at hunpack
    refine ⟨⟨n, m, q, 0⟩, ?_, hq, congrArg (Refinement.mk n m · 0) hunpack⟩
    rw [start?, if_pos hn, PackedPartition.refine?, hsplit]
    rfl
  · obtain rfl := Nat.eq_zero_of_not_pos hn
    have hnone : (Partition.trivial 0).block? 0 = none := rfl
    have hsplit : (Partition.trivial 0).split 0 (fun s ↦ !isFinal s) = Partition.trivial 0 :=
      Partition.split_of_block?_eq_none _ hnone
    have hunpack := (PackedPartition.unpack_trivial 0).trans hsplit.symm
    exact ⟨_, rfl, htrivial, congrArg (Refinement.mk 0 m · 0) hunpack⟩

/-! ### Words -/

/-- By a transition function that stays among the states, refinement ends without a failure, as it
does on lists. Two states share a block in the end when no word leads from just one of them to a
final state. -/
theorem exists_run?_and_blockOf_eq_iff (hdelta : ∀ s < n, ∀ c < m, delta s c < n)
    (isFinal : Nat → Bool) :
    ∃ before after, start? n m isFinal = some before ∧ run? delta before = some after ∧
      (Refinement.start n m isFinal).run? (fun s c ↦ some (delta s c)) = some after.unpack ∧
      after.partition.WellFormed n ∧
      ∀ x < n, ∀ y < n, after.partition.blockOf[x]? = after.partition.blockOf[y]? ↔
        Refinement.Indistinguishable m delta isFinal x y := by
  obtain ⟨before, hstart, hbefore, hunpack⟩ := exists_start? n m isFinal
  have hstates : before.numStates = n := congrArg Refinement.numStates hunpack
  have hsymbols : before.numSymbols = m := congrArg Refinement.numSymbols hunpack
  rw [← hstates] at hbefore
  have hstays : ∀ s < before.numStates, ∀ c < before.numSymbols, delta s c < before.numStates := by
    rwa [hstates, hsymbols]
  obtain ⟨after, hrun, hafter, hlists⟩ := exists_run? hbefore hstays
  rw [hunpack] at hlists
  rw [hstates] at hafter
  refine ⟨before, after, hstart, hrun, ?_, hafter, fun x hx y hy ↦ ?_⟩
  · have hfirst := Refinement.wellFormed_start n m isFinal
    rw [hlists]
    exact Refinement.run?_some fun s hs c hc ↦ hdelta s (hfirst.lt_of_mem_shared hs) c hc
  · refine (hafter.unpack.sameBlock_iff_of_lt hx).symm.trans ?_
    change after.unpack.partition.SameBlock x y ↔ _
    rw [hlists, Refinement.sameBlock_run_start_iff hdelta, and_iff_right hx, and_iff_right hy]

/-- An automaton for the words that repeat the symbol 0 followed by the symbol 1, from state 0 on.
States 2 and 4 are further states between two repetitions, and no final state follows state 5. -/
def repetitions : Nat → Nat → Nat
  | 0, 0 => 1
  | 1, 1 => 2
  | 2, 0 => 3
  | 3, 1 => 4
  | 4, 0 => 1
  | _, _ => 5

/-- Refinement of the automaton whose final states are those between two repetitions. -/
theorem exists_run?_and_blockOf_eq_iff_repetitions :
    (∀ s < 6, ∀ c < 2, repetitions s c < 6) ∧ ∃ before after,
      start? 6 2 (fun s ↦ s ∈ [0, 2, 4]) = some before ∧ run? repetitions before = some after ∧
        after.partition.WellFormed 6 ∧
        ∀ x < 6, ∀ y < 6, after.partition.blockOf[x]? = after.partition.blockOf[y]? ↔
          Refinement.Indistinguishable 2 repetitions (fun s ↦ s ∈ [0, 2, 4]) x y := by
  have hdelta : ∀ s < 6, ∀ c < 2, repetitions s c < 6 := by decide
  obtain ⟨before, after, hstart, hrun, _, hafter, hblocks⟩ :=
    exists_run?_and_blockOf_eq_iff hdelta fun s ↦ s ∈ [0, 2, 4]
  exact ⟨hdelta, before, after, hstart, hrun, hafter, hblocks⟩

example : (start? 6 2 fun s ↦ s ∈ [0, 2, 4]).bind (run? repetitions) = some
    { numStates := 6
      numSymbols := 2
      partition :=
        { extents := #[⟨0, 3⟩, ⟨3, 5⟩, ⟨5, 6⟩]
          segment := #[0, 2, 4, 1, 3, 5]
          blockOf := #[0, 1, 0, 1, 0, 2] }
      rounds := 2 } := by cbv

end LanguageTheory.PackedRefinement
