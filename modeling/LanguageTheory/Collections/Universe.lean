/-!
# Finite universes

Searches and closures end because everything they can find is listed in some finite universe.
The lemmas here count what a search has not found yet, and list all short words over a finite
universe.

Spec guidance: `SPEC_FULL.md` §4.1.
-/

namespace LanguageTheory.Universe

universe u

variable {α : Type u}

/-- Finding one more element of a finite universe leaves fewer elements to be found. -/
theorem countP_lt_countP {p q : α → Bool} {carrier : List α}
    (h : ∀ x, p x = true → q x = true) {x : α} (hx : x ∈ carrier)
    (hp : p x = false) (hq : q x = true) : carrier.countP p < carrier.countP q := by
  induction carrier with
  | nil => cases hx
  | cons y ys ih =>
    have hle : ys.countP p ≤ ys.countP q := List.countP_mono_left fun z _ ↦ h z
    rw [List.countP_cons, List.countP_cons]
    rcases List.mem_cons.1 hx with hxy | hxy
    · subst hxy
      simp only [hp, hq, Bool.false_eq_true, if_false, if_true]
      omega
    · have hlt := ih hxy
      by_cases hy : p y = true
      · simp only [hy, h y hy, if_true]
        omega
      · simp only [hy, Bool.false_eq_true, if_false]
        omega

/-- Distinct elements of a finite universe are at most as many as the universe lists. -/
theorem length_le_of_nodup [DecidableEq α] {xs carrier : List α} (hn : xs.Nodup)
    (h : ∀ x ∈ xs, x ∈ carrier) : xs.length ≤ carrier.length := by
  induction xs generalizing carrier with
  | nil => exact Nat.zero_le _
  | cons x xs ih =>
    rw [List.nodup_cons] at hn
    have hx : x ∈ carrier := h x (by simp)
    have herase : ∀ y ∈ xs, y ∈ carrier.erase x := by
      intro y hy
      have hne : y ≠ x := fun e ↦ hn.1 (e ▸ hy)
      exact (List.mem_erase_of_ne hne).2 (h y (by simp [hy]))
    have hle := ih hn.2 herase
    rw [List.length_erase_of_mem hx] at hle
    have hpos : 0 < carrier.length := List.length_pos_of_mem hx
    rw [List.length_cons]
    omega

/-- The words of bounded length over a finite universe are finitely many. -/
theorem exists_words (carrier : List α) (bound : Nat) :
    ∃ words : List (List α),
      ∀ w : List α, w.length ≤ bound → (∀ x ∈ w, x ∈ carrier) → w ∈ words := by
  induction bound with
  | zero => exact ⟨[[]], fun w hw _ ↦ by simpa using hw⟩
  | succ bound ih =>
    obtain ⟨words, hwords⟩ := ih
    refine ⟨[] :: carrier.flatMap fun x ↦ words.map (x :: ·), fun w hw hx ↦ ?_⟩
    cases w with
    | nil => simp
    | cons x w =>
      refine List.mem_cons_of_mem _ (List.mem_flatMap.2 ⟨x, hx x (by simp), ?_⟩)
      refine List.mem_map.2 ⟨w, hwords w ?_ fun y hy ↦ hx y (by simp [hy]), rfl⟩
      simpa using hw

/-- The lists of distinct elements of a finite universe are finitely many. -/
theorem exists_nodup_lists [DecidableEq α] (carrier : List α) :
    ∃ lists : List (List α),
      ∀ xs : List α, xs.Nodup → (∀ x ∈ xs, x ∈ carrier) → xs ∈ lists := by
  obtain ⟨lists, h⟩ := exists_words carrier carrier.length
  exact ⟨lists, fun xs hn hx ↦ h xs (length_le_of_nodup hn hx) hx⟩

end LanguageTheory.Universe
