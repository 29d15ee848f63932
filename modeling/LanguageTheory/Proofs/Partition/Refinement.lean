import LanguageTheory.Partition.Refinement
import LanguageTheory.Proofs.Partition.Splitting

/-!
# What refinement divides

A round divides the blocks by the blocks of the successors. The rounds end with a partition that a
further round would not divide, and they never divide two states that a relation kept by the
successors holds together. So two states share a block in the end when no word tells them apart.
-/

namespace LanguageTheory.Refinement

universe u

variable {n i k x y : Nat} {p q : Partition} {delta : Nat → Nat → Nat} {r : Refinement}

/-! ### One round -/

/-- States have the same signature when, on every symbol, their successors have the same block. -/
theorem signature_eq_iff {m : Nat} :
    signature p m delta x = signature p m delta y ↔
      ∀ c < m, p.blockOf? (delta x c) = p.blockOf? (delta y c) := by
  unfold signature
  rw [List.map_inj_left]
  simp only [List.mem_range]

/-- What a partition has become when its first `k` blocks have been split by a key: the others are
as they were. -/
structure SplitBelow {κ : Type u} (p : Partition) (n : Nat) (key : Nat → κ) (k : Nat)
    (q : Partition) : Prop where
  wellFormed : q.WellFormed n
  numBlocks_le : p.numBlocks ≤ q.numBlocks
  block?_eq : ∀ i, k ≤ i → i < p.numBlocks → q.block? i = p.block? i
  sameBlock_iff : ∀ x y, q.SameBlock x y ↔
    p.SameBlock x y ∧ ∀ i < k, p.blockOf? x = some i → key x = key y

section SplitBelow

variable {κ : Type u} [DecidableEq κ] {key : Nat → κ}

/-- Splitting the next block by the key splits one block more. -/
theorem SplitBelow.step (hp : p.WellFormed n) (h : SplitBelow p n key k q)
    (hk : k < p.numBlocks) : SplitBelow p n key (k + 1) (q.split k key) := by
  constructor
  · exact h.wellFormed.split key k
  · exact h.numBlocks_le.trans (Partition.numBlocks_le_split key q k)
  · intro i hki hi
    rw [Partition.block?_split_of_ne key (hi.trans_le h.numBlocks_le) (by omega)]
    exact h.block?_eq i (by omega) hi
  · intro x y
    have hrecord : q.blockOf? x = some k ↔ p.blockOf? x = some k := by
      rw [h.wellFormed.blockOf_iff, hp.blockOf_iff, h.block?_eq k (Nat.le_refl k) hk]
    rw [h.wellFormed.sameBlock_split_iff, h.sameBlock_iff, hrecord, and_assoc]
    refine and_congr_right' ⟨fun ⟨hbefore, hnow⟩ i hi ↦ ?_, fun hall ↦ ⟨fun i hi ↦ ?_, ?_⟩⟩
    · rcases Nat.lt_succ_iff_lt_or_eq.mp hi with hi | rfl
      · exact hbefore i hi
      · exact hnow
    · exact hall i (Nat.lt_succ_of_lt hi)
    · exact hall k (Nat.lt_succ_self k)

/-- Splitting the first blocks in turn. -/
theorem splitBelow_foldl (hp : p.WellFormed n) (key : Nat → κ) (hk : k ≤ p.numBlocks) :
    SplitBelow p n key k ((List.range k).foldl (fun q i ↦ q.split i key) p) := by
  induction k with
  | zero =>
    refine ⟨hp, Nat.le_refl _, fun _ _ _ ↦ rfl, fun x y ↦ ⟨fun h ↦ ⟨h, fun i hi ↦ ?_⟩, And.left⟩⟩
    cases hi
  | succ k ih =>
    rw [List.range_succ, List.foldl_append]
    exact (ih (Nat.le_of_succ_le hk)).step hp hk

end SplitBelow

variable (hr : r.partition.WellFormed r.numStates)

include hr

/-- All blocks are split in a round. -/
private theorem splitBelow_round :
    SplitBelow r.partition r.numStates (signature r.partition r.numSymbols delta)
      r.partition.numBlocks (round delta r).partition :=
  splitBelow_foldl hr _ (Nat.le_refl _)

/-- A round keeps a partition well formed. -/
theorem wellFormed_round : (round delta r).partition.WellFormed r.numStates :=
  (splitBelow_round hr).wellFormed

/-- After a round two states share a block when they did before and, on every symbol, their
successors did. -/
theorem sameBlock_round_iff : (round delta r).partition.SameBlock x y ↔
    r.partition.SameBlock x y ∧
      ∀ c < r.numSymbols, r.partition.blockOf? (delta x c) = r.partition.blockOf? (delta y c) := by
  rw [(splitBelow_round hr).sameBlock_iff, ← signature_eq_iff]
  refine and_congr_right fun h ↦ ⟨fun hall ↦ ?_, fun hkey _ _ _ ↦ hkey⟩
  obtain ⟨i, hx, _⟩ := hr.sameBlock_iff.mp h
  exact hall i (hr.lt_numBlocks hx) hx

/-! ### All rounds -/

/-- Refinement keeps a partition well formed. -/
theorem wellFormed_run : (run delta r).partition.WellFormed r.numStates := by
  fun_induction run delta r with
  | case1 r hlt next hgrow ih => exact ih (wellFormed_round hr)
  | case2 r hlt next hstop => exact wellFormed_round hr
  | case3 r hle => exact hr

/-- States that share a block after refinement shared it before. -/
theorem sameBlock_of_run (h : (run delta r).partition.SameBlock x y) :
    r.partition.SameBlock x y := by
  fun_induction run delta r with
  | case1 r hlt next hgrow ih =>
    exact ((sameBlock_round_iff hr).mp (ih (wellFormed_round hr) h)).1
  | case2 r hlt next hstop => exact ((sameBlock_round_iff hr).mp h).1
  | case3 r hle => exact h

/-- After refinement, the successors of states that share a block share theirs. Either the last
round divided nothing, or there are as many blocks as states. -/
theorem sameBlock_successors_of_run
    (hdelta : ∀ s < r.numStates, ∀ c < r.numSymbols, delta s c < r.numStates)
    (h : (run delta r).partition.SameBlock x y) {c : Nat} (hc : c < r.numSymbols) :
    (run delta r).partition.SameBlock (delta x c) (delta y c) := by
  fun_induction run delta r with
  | case1 r hlt next hgrow ih => exact ih (wellFormed_round hr) hdelta h hc
  | case2 r hlt next hstop =>
    obtain ⟨hxy, hsuccessors⟩ := (sameBlock_round_iff hr).mp h
    have hx := (hr.lt_of_sameBlock hxy).1
    have hold : r.partition.SameBlock (delta x c) (delta y c) :=
      (hr.sameBlock_iff_of_lt (hdelta x hx c hc)).mpr (hsuccessors c hc)
    exact hr.sameBlock_of_finer (wellFormed_round hr)
      (fun _ _ hfiner ↦ ((sameBlock_round_iff hr).mp hfiner).1) (Nat.le_of_not_lt hstop) hold
  | case3 r hle =>
    obtain rfl := hr.eq_of_sameBlock (Nat.le_of_not_lt hle) h
    have hx := (hr.lt_of_sameBlock h).1
    exact (hr.sameBlock_iff_of_lt (hdelta x hx c hc)).mpr rfl

/-- A relation that the blocks and the successors respect is respected by the blocks of a round. -/
theorem sameBlock_round_of_respected {E : Nat → Nat → Prop}
    (hblocks : ∀ s t, E s t → r.partition.SameBlock s t)
    (hsuccessors : ∀ s t, E s t → ∀ c < r.numSymbols, E (delta s c) (delta t c)) :
    ∀ s t, E s t → (round delta r).partition.SameBlock s t := by
  intro s t hst
  refine (sameBlock_round_iff hr).mpr ⟨hblocks s t hst, fun c hc ↦ ?_⟩
  have hnext := hblocks _ _ (hsuccessors s t hst c hc)
  exact (hr.sameBlock_iff_of_lt (hr.lt_of_sameBlock hnext).1).mp hnext

/-- Refinement does not divide what a relation holds together that the blocks and the successors
respect. -/
theorem sameBlock_run_of_respected {E : Nat → Nat → Prop}
    (hblocks : ∀ s t, E s t → r.partition.SameBlock s t)
    (hsuccessors : ∀ s t, E s t → ∀ c < r.numSymbols, E (delta s c) (delta t c)) :
    ∀ s t, E s t → (run delta r).partition.SameBlock s t := by
  fun_induction run delta r with
  | case1 r hlt next hgrow ih =>
    exact ih (wellFormed_round hr) (sameBlock_round_of_respected hr hblocks hsuccessors) hsuccessors
  | case2 r hlt next hstop => exact sameBlock_round_of_respected hr hblocks hsuccessors
  | case3 r hle => exact hblocks

omit hr

/-! ### The first division -/

/-- The first division is well formed. -/
theorem wellFormed_start (n m : Nat) (isFinal : Nat → Bool) :
    (start n m isFinal).partition.WellFormed n := (Partition.wellFormed_trivial n).split _ 0

/-- At first states share a block when they are both final or both not. -/
theorem sameBlock_start_iff {m : Nat} {isFinal : Nat → Bool} :
    (start n m isFinal).partition.SameBlock x y ↔ x < n ∧ y < n ∧ isFinal x = isFinal y := by
  have hrecord (hx : x < n) : (Partition.trivial n).blockOf? x = some 0 := by
    rw [Partition.blockOf?, Partition.trivial, Array.getElem?_replicate, if_pos hx]
  unfold start
  rw [(Partition.wellFormed_trivial n).sameBlock_split_iff, Partition.sameBlock_trivial_iff,
    and_assoc]
  refine and_congr_right fun hx ↦ and_congr_right' ?_
  simp [hrecord hx]

/-! ### Words -/

/-- Two states are told apart by no word over the first `m` symbols: after each of them both are
final or both are not. -/
def Indistinguishable (m : Nat) (delta : Nat → Nat → Nat) (isFinal : Nat → Bool) (x y : Nat) :
    Prop :=
  ∀ w : List Nat, (∀ c ∈ w, c < m) → isFinal (w.foldl delta x) = isFinal (w.foldl delta y)

section Words

variable {m : Nat} {isFinal : Nat → Bool} (hdelta : ∀ s < n, ∀ c < m, delta s c < n)
include hdelta

/-- After refinement the states that words lead to share their blocks when the states before the
words do. -/
theorem sameBlock_foldl_of_run
    (h : (run delta (start n m isFinal)).partition.SameBlock x y) {w : List Nat}
    (hw : ∀ c ∈ w, c < m) :
    (run delta (start n m isFinal)).partition.SameBlock (w.foldl delta x) (w.foldl delta y) := by
  induction w generalizing x y with
  | nil => exact h
  | cons c w ih =>
    obtain ⟨hc, hw⟩ := List.forall_mem_cons.mp hw
    exact ih (sameBlock_successors_of_run (wellFormed_start n m isFinal) hdelta h hc) hw

/-- After refinement two states share a block when no word tells them apart. -/
theorem sameBlock_run_start_iff :
    (run delta (start n m isFinal)).partition.SameBlock x y ↔
      x < n ∧ y < n ∧ Indistinguishable m delta isFinal x y := by
  have hstart := wellFormed_start n m isFinal
  constructor
  · intro h
    obtain ⟨hx, hy⟩ := hstart.lt_of_sameBlock (sameBlock_of_run hstart h)
    refine ⟨hx, hy, fun w hw ↦ ?_⟩
    have hafter := sameBlock_of_run hstart (sameBlock_foldl_of_run hdelta h hw)
    exact (sameBlock_start_iff.mp hafter).2.2
  · refine sameBlock_run_of_respected hstart
      (E := fun s t ↦ s < n ∧ t < n ∧ Indistinguishable m delta isFinal s t) ?_ ?_ x y
    · rintro s t ⟨hs, ht, hst⟩
      exact sameBlock_start_iff.mpr ⟨hs, ht, hst [] (by simp)⟩
    · rintro s t ⟨hs, ht, hst⟩ c hc
      refine ⟨hdelta s hs c hc, hdelta t ht c hc, fun w hw ↦ ?_⟩
      exact hst (c :: w) (List.forall_mem_cons.mpr ⟨hc, hw⟩)

end Words

end LanguageTheory.Refinement
