import LanguageTheory.Collections.OrderedSet
import LanguageTheory.Collections.Universe

/-!
# Closures

`closure expand s` adds `expand` of what is known until a round adds nothing. It ends for every
expansion that stays inside a finite universe, and its elements are those of `s`, in their order,
followed by the others in the order in which the rounds found them.

Spec guidance: `SPEC_FULL.md` §4.1.
-/

namespace LanguageTheory

universe u

namespace OrderedSet

variable {α : Type u} [DecidableEq α]

/-- An expansion is bounded when all that it ever produces is in one finite universe. -/
def Bounded (expand : OrderedSet α → OrderedSet α) : Prop :=
  ∃ carrier : List α, ∀ s, ∀ x ∈ expand s, x ∈ carrier

/-- Adding only known elements changes nothing. -/
theorem insertMany_of_subset {s : OrderedSet α} {xs : List α} (h : ∀ x ∈ xs, x ∈ s) :
    s.insertMany xs = s := by
  induction xs with
  | nil => rfl
  | cons x xs ih =>
    change (s.insert x).insertMany xs = s
    rw [insert_of_mem (h x (by simp))]
    exact ih fun y hy ↦ h y (by simp [hy])

/-- If a union is larger than its first part, then it has an element that the part lacks. -/
theorem exists_notMem_of_size_ne {s t : OrderedSet α} (h : (s ∪ t).size ≠ s.size) :
    ∃ x ∈ t, x ∉ s := by
  refine Classical.byContradiction fun hn ↦ h ?_
  have hsub : ∀ x ∈ t.toList, x ∈ s := fun x hx ↦
    Classical.byContradiction fun hs ↦ hn ⟨x, hx, hs⟩
  change (s.insertMany t.toList).size = s.size
  rw [insertMany_of_subset hsub]

/-- Least superset of `s` that is closed under a bounded, monotone expansion (§4.1). -/
def closure (expand : OrderedSet α → OrderedSet α) (bounded : Bounded expand)
    (s : OrderedSet α) : OrderedSet α :=
  let next := s ∪ expand s
  if next.size = s.size then s else closure expand bounded next
termination_by bounded.choose.countP fun x ↦ !s.contains x
decreasing_by
  rename_i h
  obtain ⟨x, hx, hs⟩ := exists_notMem_of_size_ne h
  refine Universe.countP_lt_countP (x := x) ?_ (bounded.choose_spec s x hx) ?_ ?_
  · intro y hy
    simp only [Bool.not_eq_true', ← Bool.not_eq_true, contains_iff] at hy ⊢
    exact fun hm ↦ hy (mem_union.2 (Or.inl hm))
  · simp [hx]
  · simp [contains, hs]

/-- A closure has the elements of its seed. -/
theorem subset_closure (expand : OrderedSet α → OrderedSet α) (bounded : Bounded expand)
    (s : OrderedSet α) : s ⊆ closure expand bounded s := by
  fun_induction closure expand bounded s with
  | case1 s next h => exact fun _ hx ↦ hx
  | case2 s next h ih => exact fun x hx ↦ ih x (mem_union.2 (Or.inl hx))

/-- Expanding a closure gives nothing new. -/
theorem expand_closure_subset (expand : OrderedSet α → OrderedSet α) (bounded : Bounded expand)
    (s : OrderedSet α) : expand (closure expand bounded s) ⊆ closure expand bounded s := by
  fun_induction closure expand bounded s with
  | case1 s next h =>
    refine fun x hx ↦ Classical.byContradiction fun hn ↦ ?_
    have hlt : s.size < next.size := by
      have hp := prefix_toList_insertMany s (expand s).toList
      refine Nat.lt_of_le_of_ne hp.length_le fun he ↦ hn ?_
      have hl := hp.eq_of_length he
      change x ∈ s.toList
      rw [hl]
      exact mem_union.2 (Or.inr hx)
    omega
  | case2 s next h ih => exact ih

/-- Whatever holds of the seed and is kept by the expansion holds of the closure. -/
theorem closure_induction {expand : OrderedSet α → OrderedSet α} {bounded : Bounded expand}
    {motive : α → Prop} {s : OrderedSet α} (seed : ∀ x ∈ s, motive x)
    (step : ∀ t : OrderedSet α, (∀ x ∈ t, motive x) → ∀ x ∈ expand t, motive x) :
    ∀ x ∈ closure expand bounded s, motive x := by
  fun_induction closure expand bounded s with
  | case1 s next h => exact seed
  | case2 s next h ih =>
    exact ih fun x hx ↦ (mem_union.1 hx).elim (seed x) (step s seed x)

/-- The expansion that adds the successors of every known element. -/
def successors (succ : α → List α) (s : OrderedSet α) : OrderedSet α :=
  ofList (s.toList.flatMap succ)

/-- Successors of known elements. -/
@[simp]
theorem mem_successors {succ : α → List α} {s : OrderedSet α} {y : α} :
    y ∈ successors succ s ↔ ∃ x ∈ s, y ∈ succ x := by
  simp [successors]

/-- The successors of an element in a list of successor lists. -/
def listedSuccessors (edges : List (α × List α)) (x : α) : List α :=
  (edges.filter fun e ↦ e.1 = x).flatMap Prod.snd

/-- Listed successors are finitely many. -/
theorem bounded_listedSuccessors (edges : List (α × List α)) :
    Bounded (successors (listedSuccessors edges)) := by
  refine ⟨edges.flatMap Prod.snd, fun s y hy ↦ ?_⟩
  obtain ⟨x, _, hy⟩ := mem_successors.1 hy
  obtain ⟨e, he, hy⟩ := List.mem_flatMap.1 hy
  exact List.mem_flatMap.2 ⟨e, (List.mem_filter.1 he).1, hy⟩

/-- Least superset of `s` that is closed under listed successors. -/
def closureUnder (edges : List (α × List α)) (s : OrderedSet α) : OrderedSet α :=
  closure (successors (listedSuccessors edges)) (bounded_listedSuccessors edges) s

end OrderedSet

end LanguageTheory
