import LanguageTheory.Proofs.Search.Reachability
import Mathlib.Data.List.Forall2

/-!
# Searches in step

When a relation pairs off the items of two searches, and related items have related successors in
the same order, then the searches admit related items in the same order.
-/

namespace LanguageTheory.Agenda

universe u v

variable {α : Type u} [DecidableEq α] [Hashable α] {β : Type v} [DecidableEq β] [Hashable β]
  {R : α → β → Prop} {q : Agenda α} {r : Agenda β}

/-- Two queues have admitted related items, and as many of them were taken out. -/
structure InStep (R : α → β → Prop) (q : Agenda α) (r : Agenda β) : Prop where
  visited : List.Forall₂ R q.visited r.visited
  next_eq : q.next = r.next

namespace InStep

/-- Queues that have admitted nothing are in step. -/
theorem empty : InStep R (∅ : Agenda α) (∅ : Agenda β) := ⟨.nil, rfl⟩

/-- Admitting related items keeps two queues in step. -/
theorem push (hR : Relator.BiUnique R) (h : InStep R q r) {x : α} {y : β} (hxy : R x y) :
    InStep R (q.push x) (r.push y) := by
  have hmem : x ∈ q.visited ↔ y ∈ r.visited := List.rel_mem hR hxy h.visited
  by_cases hx : x ∈ q.visited
  · rw [push_of_mem hx, push_of_mem (hmem.mp hx)]
    exact h
  · have hy : y ∉ r.visited := fun hy ↦ hx (hmem.mpr hy)
    constructor
    · rw [visited_push_of_notMem hx, visited_push_of_notMem hy]
      exact List.rel_append h.visited (.cons hxy .nil)
    · rw [next_push, next_push]
      exact h.next_eq

/-- Admitting related items one after the other keeps two queues in step. -/
theorem pushMany (hR : Relator.BiUnique R) {xs : List α} {ys : List β}
    (hxs : List.Forall₂ R xs ys) (h : InStep R q r) : InStep R (q.pushMany xs) (r.pushMany ys) := by
  induction hxs generalizing q r with
  | nil => exact h
  | cons hxy _ ih => exact ih (h.push hR hxy)

/-- Queues in step list as many items. -/
theorem size_items_eq (h : InStep R q r) : q.items.size = r.items.size := by
  simpa [Agenda.visited] using h.visited.length_eq

/-- Queues in step run empty together. -/
theorem pop?_eq_none (h : InStep R q r) (hq : q.pop? = none) : r.pop? = none := by
  rw [pop?_eq_none_iff] at hq ⊢
  rwa [← h.size_items_eq, ← h.next_eq]

/-- From queues in step related items are taken out. -/
theorem pop?_eq_some (h : InStep R q r) {x : α} {rest : Agenda α}
    (hq : q.pop? = some (x, rest)) :
    ∃ y rest', r.pop? = some (y, rest') ∧ R x y ∧ InStep R rest rest' := by
  obtain ⟨hlt, rfl, rfl⟩ := pop?_eq_some_iff.mp hq
  have hlt' : r.next < r.items.size := by rwa [← h.next_eq, ← h.size_items_eq]
  refine ⟨_, _, pop?_eq_some_iff.mpr ⟨hlt', rfl, rfl⟩, ?_, ?_⟩
  · have hget := (List.forall₂_iff_get.mp h.visited).2 q.next
      (by simpa [Agenda.visited] using hlt) (by simpa [Agenda.visited, h.next_eq] using hlt')
    simpa [Agenda.visited, h.next_eq] using hget
  · exact ⟨h.visited, congrArg (· + 1) h.next_eq⟩

/-- Work without a goal keeps two queues in step. -/
theorem work (hR : Relator.BiUnique R) {succ : α → List α} {succ' : β → List β}
    (hsucc : ∀ x y, R x y → List.Forall₂ R (succ x) (succ' y)) {first : List α} {first' : List β}
    {bounded : Bounded succ first} {bounded' : Bounded succ' first'}
    {inside : ∀ x ∈ q.visited, x ∈ bounded.choose}
    {inside' : ∀ y ∈ r.visited, y ∈ bounded'.choose} (h : InStep R q r) :
    InStep R (Agenda.work (fun _ ↦ false) succ bounded q inside)
      (Agenda.work (fun _ ↦ false) succ' bounded' r inside') := by
  fun_induction Agenda.work (fun _ ↦ false) succ bounded q inside generalizing r with
  | case1 q _ hq =>
    rw [work_of_pop?_eq_none (fun _ ↦ false) bounded' inside' (h.pop?_eq_none hq)]
    exact h
  | case2 q _ x rest hq hx => cases hx
  | case3 q _ x rest hq hx ih =>
    obtain ⟨y, rest', hr, hxy, hrest⟩ := h.pop?_eq_some hq
    rw [work_of_pop?_eq_some (fun _ ↦ false) bounded' inside' hr rfl]
    exact ih (hrest.pushMany hR (hsucc x y hxy))

end InStep

/-- Searches from related items by related successors admit related items in the same order. -/
theorem forall₂_visited_explore (hR : Relator.BiUnique R) {succ : α → List α}
    {succ' : β → List β} (hsucc : ∀ x y, R x y → List.Forall₂ R (succ x) (succ' y))
    {first : List α} {first' : List β} (hfirst : List.Forall₂ R first first')
    (bounded : Bounded succ first) (bounded' : Bounded succ' first') :
    List.Forall₂ R (explore succ first bounded).visited (explore succ' first' bounded').visited :=
  (InStep.empty.pushMany hR hfirst).work hR hsucc |>.visited

end LanguageTheory.Agenda
