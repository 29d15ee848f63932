import LanguageTheory.Numbered.Refinement
import LanguageTheory.Proofs.Collections.Indexing
import LanguageTheory.Proofs.Partition.Refinement

/-!
# Refinement that finds what it compares

When the successors of all states are found and are states, no lookup of a refinement fails: the
blocks of a well-formed partition list states only, and the block of each state is recorded.
-/

namespace LanguageTheory

universe u

variable {n i : Nat} {p : Partition}

/-! ### Splitting -/

namespace Partition.WellFormed

variable {κ : Type u} [DecidableEq κ] [Inhabited κ] {key : Nat → κ} {key? : Nat → Option κ}
  (hkey : ∀ x < n, key? x = some (key x))
include hkey

/-- A block is split when the keys of all numbers below the bound are found. -/
theorem splitBy?_eq_some (hp : p.WellFormed n) (hi : i < p.numBlocks) :
    p.splitBy? i key? = some (p.split i key) := by
  obtain ⟨block, hblock⟩ : ∃ block, p.block? i = some block := ⟨_, Array.getElem?_eq_getElem hi⟩
  have hfound : ∀ x ∈ block, (key? x).isSome ∧ x < p.blockOf.size := by
    intro x hx
    have hlt := hp.lt_of_mem_block? hblock hx
    rw [hkey x hlt, hp.size_blockOf]
    exact ⟨rfl, hlt⟩
  have hsplit : (p.split i fun x ↦ (key? x).getD default) = p.split i key :=
    hp.split_congr (fun x hx y hy ↦ by rw [hkey x hx, hkey y hy]; rfl) i
  rw [splitBy?, hblock, Option.bind_eq_bind, Option.bind_some, if_pos hfound, hsplit]
  rfl

/-- Several blocks are split one after the other when the keys are found. -/
theorem foldlM_splitBy?_eq_some (hp : p.WellFormed n) {is : List Nat}
    (his : ∀ i ∈ is, i < p.numBlocks) : is.foldlM (fun q i ↦ q.splitBy? i key?) p =
      some (is.foldl (fun q i ↦ q.split i key) p) := by
  induction is generalizing p with
  | nil => rfl
  | cons i is ih =>
    obtain ⟨hi, his⟩ := List.forall_mem_cons.mp his
    have hle := numBlocks_le_split key p i
    rw [List.foldlM_cons, hp.splitBy?_eq_some hkey hi]
    exact ih (hp.split key i) fun j hj ↦ (his j hj).trans_le hle

end Partition.WellFormed

namespace Refinement

variable {r : Refinement} {delta : Nat → Nat → Nat} {delta? : Nat → Nat → Option Nat}

/-! ### Rounds -/

/-- The first division is found when it is known of every state whether it is final. -/
theorem start?_eq_some {m : Nat} {isFinal : Nat → Bool} {isFinal? : Nat → Option Bool}
    (hfinal : ∀ s < n, isFinal? s = some (isFinal s)) :
    start? n m isFinal? = some (start n m isFinal) := by
  have hkey : ∀ s < n, (isFinal? s).map not = some (!isFinal s) := by
    intro s hs
    rw [hfinal s hs]
    rfl
  rw [start?]
  by_cases hn : 0 < n
  · have hblock : 0 < (Partition.trivial n).numBlocks := by
      rw [Partition.numBlocks, Partition.trivial, if_neg (Nat.ne_of_gt hn)]
      exact Nat.one_pos
    rw [if_pos hn, (Partition.wellFormed_trivial n).splitBy?_eq_some hkey hblock]
    rfl
  · obtain rfl := Nat.eq_zero_of_not_pos hn
    rfl

variable (hr : r.partition.WellFormed r.numStates)
  (hdelta : ∀ s < r.numStates, ∀ c < r.numSymbols,
    delta? s c = some (delta s c) ∧ delta s c < r.numStates)
include hr hdelta

/-- The signature of a state is found. -/
theorem signature?_eq_some {s : Nat} (hs : s < r.numStates) :
    signature? r.partition r.numSymbols delta? s =
      some (signature r.partition r.numSymbols delta s) := by
  refine mapM_eq_some_map fun c hc ↦ ?_
  obtain ⟨hfound, hlt⟩ := hdelta s hs c (List.mem_range.mp hc)
  obtain ⟨b, hb⟩ := hr.exists_blockOf?_iff.mpr hlt
  simp only [hfound, hb, Option.bind_eq_bind, Option.bind_some, Option.pure_def]

/-- The partition after a round is found. -/
theorem divide?_eq_some : divide? delta? r = some (round delta r).partition :=
  hr.foldlM_splitBy?_eq_some (fun _ hs ↦ signature?_eq_some hr hdelta hs)
    fun _ hi ↦ List.mem_range.mp hi

/-- All rounds are found, and give what refinement gives. -/
theorem stabilize?_eq_some : stabilize? delta? r = some (run delta r) := by
  fun_induction run delta r with
  | case1 r hlt next hgrow ih =>
    rw [stabilize?, if_pos hlt, divide?_eq_some hr hdelta]
    exact (if_pos hgrow).trans (ih (wellFormed_round hr) hdelta)
  | case2 r hlt next hstop =>
    rw [stabilize?, if_pos hlt, divide?_eq_some hr hdelta]
    exact if_neg hstop
  | case3 r hle => rw [stabilize?, if_neg hle]

end Refinement

end LanguageTheory
