import Mathlib.Data.List.Nodup

/-!
# Lists that are read by number

A list keeps its places when it is continued. A table that is written row by row has each entry in a
place that is known from the numbers of its row and its column. A lookup for each element of a list
gives a list of what is found, unless one of them finds nothing.
-/

namespace LanguageTheory

universe u v

variable {α : Type u} {β : Type v}

/-- What stands at a place of a front part stands there in the whole list. -/
theorem getElem?_eq_some_of_isPrefix {xs ys : List α} (h : xs <+: ys) {i : Nat} {x : α}
    (hx : xs[i]? = some x) : ys[i]? = some x := by
  obtain ⟨rest, rfl⟩ := h
  have hi : i < xs.length := (List.getElem?_eq_some_iff.mp hx).1
  rw [List.getElem?_append_left hi, hx]

/-- In rows of one length that are written one after the other, the entries of a row come after
those of the rows before it. -/
theorem getElem?_flatMap_of_length {xs : List α} {row : α → List β} {n : Nat}
    (hrow : ∀ x ∈ xs, (row x).length = n) (i : Nat) {j : Nat} (hj : j < n) :
    (xs.flatMap row)[i * n + j]? = xs[i]?.bind fun x ↦ (row x)[j]? := by
  induction xs generalizing i with
  | nil => rfl
  | cons x xs ih =>
    have hx : (row x).length = n := hrow x List.mem_cons_self
    rw [List.flatMap_cons]
    cases i with
    | zero =>
      rw [Nat.zero_mul, Nat.zero_add, List.getElem?_append_left (hx.symm ▸ hj)]
      rfl
    | succ i =>
      have hplace : (i + 1) * n + j = n + (i * n + j) := by rw [Nat.succ_mul]; omega
      rw [hplace, List.getElem?_append_right (hx.symm ▸ Nat.le_add_right _ _), hx,
        Nat.add_sub_cancel_left, ih (fun y hy ↦ hrow y (List.mem_cons_of_mem _ hy))]
      rfl

/-- Rows of one length have as many entries as that many times the rows. -/
theorem length_flatMap_of_length {xs : List α} {row : α → List β} {n : Nat}
    (hrow : ∀ x ∈ xs, (row x).length = n) : (xs.flatMap row).length = xs.length * n := by
  rw [List.length_flatMap, List.map_congr_left hrow, List.map_const', List.sum_replicate_nat]

/-- The entries of a row come before the rows behind it. -/
theorem rowPlace_lt {i k j n : Nat} (hi : i < k) (hj : j < n) : i * n + j < k * n := by
  have hrow : (i + 1) * n ≤ k * n := Nat.mul_le_mul_right n hi
  rw [Nat.succ_mul] at hrow
  omega

/-- Entries of different rows or columns have different places. -/
theorem rowPlace_inj {i k j l n : Nat} (hj : j < n) (hl : l < n) (h : i * n + j = k * n + l) :
    i = k ∧ j = l := by
  have hcolumn : j = l := by
    have hmod := congrArg (· % n) h
    simpa [Nat.mul_add_mod', Nat.mod_eq_of_lt hj, Nat.mod_eq_of_lt hl] using hmod
  have hrow : i * n = k * n := by omega
  exact ⟨Nat.eq_of_mul_eq_mul_right (by omega) hrow, hcolumn⟩

/-- Writing over the value of one element, in a list without repetitions. -/
theorem set_map_of_getElem? [DecidableEq α] {f : α → β} {xs : List α} (hxs : xs.Nodup) {k : Nat}
    {x : α} (hx : xs[k]? = some x) (y : β) :
    (xs.map f).set k y = xs.map (Function.update f x y) := by
  obtain ⟨hk, hget⟩ := List.getElem?_eq_some_iff.mp hx
  rw [hxs.map_update, if_pos (List.mem_of_getElem? hx), ← hget, hxs.idxOf_getElem k hk]

/-! ### Lookups for all elements of a list -/

/-- All lookups succeed when each finds the element that is in its place of a second list. -/
theorem mapM_eq_some_of_getElem? {f : α → Option β} {xs : List α} {ys : List β}
    (hlength : xs.length = ys.length)
    (h : ∀ (i : Nat) (x : α) (y : β), xs[i]? = some x → ys[i]? = some y → f x = some y) :
    xs.mapM f = some ys := by
  induction xs generalizing ys with
  | nil =>
    rw [List.eq_nil_of_length_eq_zero hlength.symm]
    rfl
  | cons x xs ih =>
    cases ys with
    | nil => cases hlength
    | cons y ys =>
      have hrest : xs.mapM f = some ys :=
        ih (Nat.succ.inj hlength) fun i a b ha hb ↦ h (i + 1) a b ha hb
      rw [List.mapM_cons, h 0 x y rfl rfl, hrest]
      rfl

/-- All lookups succeed when each of them does. -/
theorem mapM_eq_some_map {f : α → Option β} {g : α → β} {xs : List α}
    (h : ∀ x ∈ xs, f x = some (g x)) : xs.mapM f = some (xs.map g) := by
  refine mapM_eq_some_of_getElem? (List.length_map g).symm fun i x y hx hy ↦ ?_
  rw [List.getElem?_map, hx] at hy
  cases hy
  exact h x (List.mem_of_getElem? hx)

/-- The elements for which a lookup finds `true` are found when all lookups succeed. -/
theorem filterM_eq_some_filter {α : Type} {f : α → Option Bool} {p : α → Bool} {xs : List α}
    (h : ∀ x ∈ xs, f x = some (p x)) : xs.filterM f = some (xs.filter p) := by
  have general : ∀ found : List α, xs.filterAuxM f found =
      some ((xs.filter p).reverse ++ found) := by
    induction xs with
    | nil => exact fun _ ↦ rfl
    | cons x xs ih =>
      intro found
      obtain ⟨hx, hxs⟩ := List.forall_mem_cons.mp h
      rw [List.filterAuxM, hx, Option.bind_eq_bind, Option.bind_some, ih hxs]
      cases hp : p x <;> simp [hp]
  rw [List.filterM, general]
  simp

/-- The lookups fail when one of them does. -/
theorem mapM_eq_none_of_mem {f : α → Option β} {xs : List α} {x : α} (hx : x ∈ xs)
    (h : f x = none) : xs.mapM f = none := by
  induction xs with
  | nil => cases hx
  | cons y ys ih =>
    rw [List.mapM_cons]
    rcases List.mem_cons.mp hx with rfl | hx
    · rw [h]
      rfl
    · rw [ih hx]
      cases f y <;> rfl

/-- A lookup that is asked for only if there is something to look up succeeds when it does then. -/
theorem optionMapM_eq_some_map {f : α → Option β} {g : α → β} {x : Option α}
    (h : ∀ a, x = some a → f a = some (g a)) : x.mapM f = some (x.map g) := by
  cases x with
  | none => rfl
  | some a => exact congrArg (some <$> ·) (h a rfl)

end LanguageTheory
