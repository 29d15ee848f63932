import LanguageTheory.Alphabet
import LanguageTheory.Proofs.Collections.Indexing
import Mathlib.Data.Char
import Mathlib.Data.List.Sort

/-!
# Places and sorted elements of ordered sets

Every element of a set has one place. Sorting forgets the order of insertion, so two sets with the
same elements have the same sorted list.
-/

namespace LanguageTheory

universe u

/-- In a list without repetition, the place of an element is where it stands. -/
theorem idxOf?_eq_some_iff_of_nodup {α : Type u} [DecidableEq α] {xs : List α} (h : xs.Nodup)
    {x : α} {i : Nat} : xs.idxOf? x = some i ↔ xs[i]? = some x := by
  rw [List.idxOf?_eq_some_iff, List.getElem?_eq_some_iff]
  constructor
  · rintro ⟨hi, hx, _⟩
    exact ⟨hi, hx⟩
  · rintro ⟨hi, hx⟩
    refine ⟨hi, hx, fun j hj he ↦ ?_⟩
    have hij : j = i := h.getElem_inj_iff.mp (he.trans hx.symm)
    omega

namespace OrderedSet

variable {α : Type u}

/-- The place of an element is where it is listed. -/
theorem idxOf?_eq_some_iff [DecidableEq α] {s : OrderedSet α} {x : α} {i : Nat} :
    s.idxOf? x = some i ↔ s.get? i = some x :=
  idxOf?_eq_some_iff_of_nodup s.nodup

/-- An element keeps its place when others are added. -/
theorem idxOf?_eq_some_of_prefix [DecidableEq α] {s t : OrderedSet α} {x : α} {i : Nat}
    (h : s.toList <+: t.toList) (hx : s.idxOf? x = some i) : t.idxOf? x = some i := by
  rw [idxOf?_eq_some_iff, get?] at hx ⊢
  exact getElem?_eq_some_of_isPrefix h hx

/-- The elements are what has a place. -/
theorem exists_idxOf?_eq_some_iff [DecidableEq α] {s : OrderedSet α} {x : α} :
    (∃ i, s.idxOf? x = some i) ↔ x ∈ s := by
  rw [← Option.isSome_iff_exists]
  exact List.isSome_idxOf?

/-- An element has a place. -/
theorem exists_idxOf?_eq_some [DecidableEq α] {s : OrderedSet α} {x : α} (hx : x ∈ s) :
    ∃ i, s.idxOf? x = some i := exists_idxOf?_eq_some_iff.mpr hx

/-- A place is below the number of elements. -/
theorem lt_size_of_idxOf?_eq_some [DecidableEq α] {s : OrderedSet α} {x : α} {i : Nat}
    (h : s.idxOf? x = some i) : i < s.size :=
  (List.getElem?_eq_some_iff.mp (idxOf?_eq_some_iff.mp h)).1

/-- Elements with the same place are the same. -/
theorem eq_of_idxOf?_eq_some [DecidableEq α] {s : OrderedSet α} {x y : α} {i : Nat}
    (hx : s.idxOf? x = some i) (hy : s.idxOf? y = some i) : x = y := by
  rw [idxOf?_eq_some_iff] at hx hy
  exact Option.some.inj (hx.symm.trans hy)

/-- A set has one element at most when its elements are the same. -/
theorem size_le_one_iff {s : OrderedSet α} : s.size ≤ 1 ↔ ∀ x ∈ s, ∀ y ∈ s, x = y := by
  obtain ⟨xs, hnodup⟩ := s
  change xs.length ≤ 1 ↔ ∀ x ∈ xs, ∀ y ∈ xs, x = y
  match xs, hnodup with
  | [], _ => simp
  | [x], _ => simp
  | x :: y :: rest, hnodup =>
    refine iff_of_false (by simp) fun h ↦ (List.nodup_cons.mp hnodup).1 ?_
    rw [h x (by simp) y (by simp)]
    exact List.mem_cons_self

/-- New elements without repetition are listed as they are added. -/
theorem toList_insertMany_of_nodup [DecidableEq α] {s : OrderedSet α} {xs : List α}
    (h : (s.toList ++ xs).Nodup) : (s.insertMany xs).toList = s.toList ++ xs := by
  induction xs generalizing s with
  | nil => exact (List.append_nil _).symm
  | cons x xs ih =>
    have hassoc : s.toList ++ x :: xs = s.toList ++ [x] ++ xs := by simp
    have hx : x ∉ s := fun hx ↦ List.disjoint_of_nodup_append h hx List.mem_cons_self
    rw [hassoc, ← toList_insert_of_notMem hx] at h ⊢
    exact ih h

/-- The set of a list without repetition lists its elements in the same order. -/
theorem toList_ofList_of_nodup [DecidableEq α] {xs : List α} (h : xs.Nodup) :
    (ofList xs).toList = xs := toList_insertMany_of_nodup h

/-- Sets with the same elements have the same sorted list. -/
theorem sorted_congr [LinearOrder α] {s t : OrderedSet α} (h : ∀ x, x ∈ s ↔ x ∈ t) :
    s.sorted = t.sorted := by
  have hperm : s.sorted.Perm t.sorted := by
    rw [List.perm_ext_iff_of_nodup s.nodup_sorted t.nodup_sorted]
    intro x
    rw [mem_sorted, mem_sorted, h]
  exact hperm.eq_of_pairwise' List.sortedLE_mergeSort.pairwise List.sortedLE_mergeSort.pairwise

end OrderedSet

namespace Alphabet

/-- The alphabets of a list are those with its characters in the same order, if `ε` is none of
them. -/
theorem ofChars_eq_ok_iff {cs : List Char} {a : Alphabet} :
    ofChars cs = .ok a ↔ a.toList = cs ∧ epsilonChar ∉ cs := by
  have hdeclare : ∀ {cs : List Char} {known : OrderedSet Char}, declare known cs = .ok a ↔
      a.toList = known.toList ++ cs ∧ epsilonChar ∉ cs := by
    intro cs
    induction cs with
    | nil =>
      intro known
      simp [declare, toList, Alphabet.ext_iff, OrderedSet.ext_iff, eq_comm]
    | cons c cs ih =>
      intro known
      unfold declare
      split
      · next hc => simp [hc]
      · next hc =>
        split
        · next hmem =>
          -- The characters of an alphabet are distinct, so none of them is repeated.
          constructor
          · intro h
            cases h
          · rintro ⟨ha, _⟩
            have hnodup : (known.toList ++ c :: cs).Nodup := ha ▸ a.chars.nodup
            exact absurd List.mem_cons_self (List.disjoint_of_nodup_append hnodup hmem)
        · next hmem =>
          rw [ih, OrderedSet.toList_insert_of_notMem hmem]
          simp [Ne.symm hc]
  rw [ofChars, hdeclare]
  rfl

/-- Distinct characters other than `ε` have an alphabet. -/
theorem exists_ofChars_eq_ok_iff {cs : List Char} :
    (∃ a, ofChars cs = .ok a) ↔ cs.Nodup ∧ epsilonChar ∉ cs := by
  simp only [ofChars_eq_ok_iff]
  constructor
  · rintro ⟨a, rfl, hepsilon⟩
    exact ⟨a.chars.nodup, hepsilon⟩
  · rintro ⟨hnodup, hepsilon⟩
    exact ⟨⟨⟨cs, hnodup⟩⟩, rfl, hepsilon⟩

/-- The number of a character is where it is listed. -/
theorem idxOf?_eq_some_iff {a : Alphabet} {c : Char} {k : Nat} :
    a.idxOf? c = some k ↔ a.toList[k]? = some c := OrderedSet.idxOf?_eq_some_iff

/-- A character without a number is not declared. -/
theorem idxOf?_eq_none_iff {a : Alphabet} {c : Char} : a.idxOf? c = none ↔ c ∉ a :=
  List.idxOf?_eq_none_iff

/-- Alphabets with the same characters are sorted alike. -/
theorem sorted_congr {a b : Alphabet} (h : ∀ c, c ∈ a ↔ c ∈ b) : a.sorted = b.sorted :=
  Alphabet.ext (OrderedSet.ext (OrderedSet.sorted_congr h))

end Alphabet

end LanguageTheory
