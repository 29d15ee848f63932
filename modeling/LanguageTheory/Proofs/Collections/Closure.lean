import LanguageTheory.Collections.Closure
import Mathlib.Logic.Function.Iterate

/-!
# Closures are smallest closed sets

A round adds what the expansion finds. Every round but the last one finds an element of the finite
universe that was not known, so there are no more such rounds than the universe has elements. What
is known at the end is closed under the expansion, and every closed set that has the seed has it if
the expansion is monotone.
-/

namespace LanguageTheory.OrderedSet

universe u

variable {α : Type u} [DecidableEq α] {expand : OrderedSet α → OrderedSet α} {s : OrderedSet α}
  {n : Nat}

/-! ### Rounds -/

/-- One round adds what the expansion finds. -/
def round (expand : OrderedSet α → OrderedSet α) (s : OrderedSet α) : OrderedSet α := s ∪ expand s

/-- From `s` on, round `n` is the first one that leaves the number of elements as it was. -/
structure StopsAt (expand : OrderedSet α → OrderedSet α) (s : OrderedSet α) (n : Nat) : Prop where
  stops : ((round expand)^[n + 1] s).size = ((round expand)^[n] s).size
  goes_on : ∀ m < n, ((round expand)^[m + 1] s).size ≠ ((round expand)^[m] s).size

/-- A round lists new elements behind those that are known. -/
theorem prefix_round (expand : OrderedSet α → OrderedSet α) (s : OrderedSet α) :
    s.toList <+: (round expand s).toList := prefix_toList_insertMany s _

/-- A round that leaves the number of elements as it was finds nothing new. -/
theorem round_eq_self (h : (round expand s).size = s.size) : round expand s = s := by
  apply OrderedSet.ext
  exact ((prefix_round expand s).eq_of_length h.symm).symm

/-- Rounds list new elements behind those that are known. -/
theorem prefix_iterate_round (expand : OrderedSet α → OrderedSet α) (s : OrderedSet α) (n : Nat) :
    s.toList <+: ((round expand)^[n] s).toList := by
  induction n generalizing s with
  | zero => exact List.prefix_rfl
  | succ n ih =>
    rw [Function.iterate_succ_apply]
    exact (prefix_round expand s).trans (ih (round expand s))

/-- The first round may find nothing new. -/
theorem stopsAt_zero (h : (round expand s).size = s.size) : StopsAt expand s 0 := by
  constructor
  · simpa using h
  · intro m hm
    omega

/-- A round that finds something new is followed by the others. -/
theorem stopsAt_succ (h : (round expand s).size ≠ s.size) (hn : StopsAt expand (round expand s) n) :
    StopsAt expand s (n + 1) := by
  constructor
  · rw [Function.iterate_succ_apply, Function.iterate_succ_apply]
    exact hn.stops
  · intro m hm
    cases m with
    | zero => simpa using h
    | succ m =>
      rw [Function.iterate_succ_apply, Function.iterate_succ_apply]
      exact hn.goes_on m (by omega)

/-- Rounds find elements of the universe. -/
theorem mem_carrier_of_mem_iterate_round {carrier : List α}
    (hcarrier : ∀ s, ∀ x ∈ expand s, x ∈ carrier) {x : α} (hx : x ∈ (round expand)^[n] s) :
    x ∈ s ∨ x ∈ carrier := by
  induction n generalizing s with
  | zero => exact .inl hx
  | succ n ih =>
    rw [Function.iterate_succ_apply] at hx
    rcases ih hx with hx | hx
    · exact (mem_union.mp hx).imp id (hcarrier s x)
    · exact .inr hx

/-- Rounds find no more elements than the universe has. -/
theorem size_iterate_round_le {carrier : List α} (hcarrier : ∀ s, ∀ x ∈ expand s, x ∈ carrier)
    (s : OrderedSet α) (n : Nat) : ((round expand)^[n] s).size ≤ s.size + carrier.length := by
  obtain ⟨new, hnew⟩ := prefix_iterate_round expand s n
  have hnodup := ((round expand)^[n] s).nodup
  rw [← hnew, List.nodup_append] at hnodup
  have hle : new.length ≤ carrier.length := by
    refine Universe.length_le_of_nodup hnodup.2.1 fun x hx ↦ ?_
    have hmem : x ∈ (round expand)^[n] s := by
      rw [← mem_toList, ← hnew]
      exact List.mem_append_right _ hx
    refine (mem_carrier_of_mem_iterate_round hcarrier hmem).resolve_left fun hs ↦ ?_
    exact hnodup.2.2 x hs x hx rfl
  rw [size, ← hnew, List.length_append, size]
  omega

/-- Every round before the last one finds something new. -/
theorem StopsAt.size_add_le (h : StopsAt expand s n) {m : Nat} (hm : m ≤ n) :
    s.size + m ≤ ((round expand)^[m] s).size := by
  induction m with
  | zero => exact Nat.le_refl s.size
  | succ m ih =>
    have hgrows : ((round expand)^[m] s).size ≤ ((round expand)^[m + 1] s).size := by
      rw [Function.iterate_succ_apply']
      exact (prefix_round expand _).length_le
    have hne := h.goes_on m hm
    have hle := ih (by omega)
    omega

/-- There are no more rounds before the last one than the universe has elements. -/
theorem StopsAt.le_length (h : StopsAt expand s n) {carrier : List α}
    (hcarrier : ∀ s, ∀ x ∈ expand s, x ∈ carrier) : n ≤ carrier.length := by
  have hfound := h.size_add_le (Nat.le_refl n)
  have hbound := size_iterate_round_le hcarrier s n
  omega

/-- Only one round is the first one that finds nothing new. -/
theorem StopsAt.unique {m : Nat} (hm : StopsAt expand s m) (hn : StopsAt expand s n) : m = n := by
  rcases Nat.lt_trichotomy m n with hlt | heq | hlt
  · exact absurd hm.stops (hn.goes_on m hlt)
  · exact heq
  · exact absurd hn.stops (hm.goes_on n hlt)

/-- A closure is what is known after the last round. -/
theorem exists_stopsAt_and_closure_eq (bounded : Bounded expand) (s : OrderedSet α) :
    ∃ n, StopsAt expand s n ∧ closure expand bounded s = (round expand)^[n + 1] s := by
  fun_induction closure expand bounded s with
  | case1 s next h => exact ⟨0, stopsAt_zero h, (round_eq_self h).symm⟩
  | case2 s next h ih =>
    obtain ⟨n, hn, heq⟩ := ih
    exact ⟨n + 1, stopsAt_succ h hn, heq⟩

/-! ### Smallest closed sets -/

/-- The smallest set that has the elements of `seed` and is closed under `expand`. -/
structure IsLeastClosed (expand : OrderedSet α → OrderedSet α) (seed c : OrderedSet α) :
    Prop where
  subset : seed ⊆ c
  closed : expand c ⊆ c
  least : ∀ t, seed ⊆ t → expand t ⊆ t → c ⊆ t

/-- A closed set that has the elements of the seed has those of its closure. -/
theorem closure_subset {bounded : Bounded expand}
    (monotone : ∀ s t : OrderedSet α, s ⊆ t → expand s ⊆ expand t) {t : OrderedSet α} (hs : s ⊆ t)
    (ht : expand t ⊆ t) : closure expand bounded s ⊆ t := by
  apply closure_induction hs
  intro known hknown x hx
  exact ht x (monotone known t hknown x hx)

/-- The rounds of a closure end, after no more of them than the universe has elements and one that
finds nothing new. They end with the smallest closed set that has the seed, and list the elements of
the seed first, in their order. -/
theorem closure_isLeastClosed (bounded : Bounded expand)
    (monotone : ∀ s t : OrderedSet α, s ⊆ t → expand s ⊆ expand t) (seed : OrderedSet α) :
    (∃ n, StopsAt expand seed n ∧ closure expand bounded seed = (round expand)^[n + 1] seed ∧
      ∀ carrier : List α, (∀ s, ∀ x ∈ expand s, x ∈ carrier) → n ≤ carrier.length) ∧
    IsLeastClosed expand seed (closure expand bounded seed) ∧
    seed.toList <+: (closure expand bounded seed).toList := by
  obtain ⟨n, hn, heq⟩ := exists_stopsAt_and_closure_eq bounded seed
  refine ⟨⟨n, hn, heq, fun carrier hcarrier ↦ hn.le_length hcarrier⟩, ?_, ?_⟩
  · constructor
    · exact subset_closure expand bounded seed
    · exact expand_closure_subset expand bounded seed
    · intro t hseed ht
      exact closure_subset monotone hseed ht
  · rw [heq]
    exact prefix_iterate_round expand seed (n + 1)

/-- The successors of more elements are more. -/
theorem successors_subset_successors (succ : α → List α) {t : OrderedSet α} (h : s ⊆ t) :
    successors succ s ⊆ successors succ t := by
  intro y hy
  obtain ⟨x, hx, hxy⟩ := mem_successors.mp hy
  exact mem_successors.mpr ⟨x, h x hx, hxy⟩

/-- A cycle through 0, 1 and 2, to which 3 leads. -/
def tailedCycle : List (Nat × List Nat) := [(0, [1]), (1, [2]), (2, [0]), (3, [0])]

/-- From 1 on, two rounds go around the cycle and the third one finds nothing new. -/
theorem closure_isLeastClosed_tailedCycle :
    Bounded (successors (listedSuccessors tailedCycle)) ∧
    (∀ s t : OrderedSet Nat, s ⊆ t → successors (listedSuccessors tailedCycle) s ⊆
      successors (listedSuccessors tailedCycle) t) ∧
    StopsAt (successors (listedSuccessors tailedCycle)) (singleton 1) 2 ∧
    IsLeastClosed (successors (listedSuccessors tailedCycle)) (singleton 1) (ofList [1, 2, 0]) := by
  have monotone : ∀ s t : OrderedSet Nat, s ⊆ t → successors (listedSuccessors tailedCycle) s ⊆
      successors (listedSuccessors tailedCycle) t := fun _ _ ↦ successors_subset_successors _
  have hstops : StopsAt (successors (listedSuccessors tailedCycle)) (singleton 1) 2 :=
    ⟨by decide, by decide⟩
  obtain ⟨⟨n, hn, heq, _⟩, hleast, _⟩ :=
    closure_isLeastClosed (bounded_listedSuccessors tailedCycle) monotone (singleton 1)
  obtain rfl := hstops.unique hn
  have hclosure : (round (successors (listedSuccessors tailedCycle)))^[3] (singleton 1) =
      ofList [1, 2, 0] := by decide
  rw [heq, hclosure] at hleast
  exact ⟨bounded_listedSuccessors tailedCycle, monotone, hstops, hleast⟩

end LanguageTheory.OrderedSet
