import LanguageTheory.Collections.OrderedSet
import LanguageTheory.Collections.Universe

/-!
# Depth-first order

A depth-first visit lists every node after the nodes that were visited because of it. In a graph
without cycles every node then comes after all its successors.

Spec guidance: `SPEC_FULL.md` §4.5.
-/

namespace LanguageTheory

universe u

/-- Nodes that a visit has entered, and those that it has left, in order. -/
structure DepthFirst (α : Type u) where
  entered : OrderedSet α
  left : List α

namespace DepthFirst

variable {α : Type u} [DecidableEq α]

/-- Enters a node. -/
def enter (s : DepthFirst α) (x : α) : DepthFirst α := { s with entered := s.entered.insert x }

/-- Leaves a node. -/
def leave (s : DepthFirst α) (x : α) : DepthFirst α := { s with left := s.left ++ [x] }

/-- Having entered one more node of a finite universe leaves fewer to be entered. -/
theorem countP_lt {carrier : List α} {s t : DepthFirst α} {x : α} (hx : x ∈ carrier)
    (hs : x ∉ s.entered) (ht : x ∈ t.entered) (h : ∀ y ∈ s.entered, y ∈ t.entered) :
    (carrier.countP fun y ↦ !t.entered.contains y) <
      carrier.countP fun y ↦ !s.entered.contains y := by
  refine Universe.countP_lt_countP (x := x) ?_ hx ?_ ?_
  · intro y hy
    simp only [Bool.not_eq_true', ← Bool.not_eq_true, OrderedSet.contains_iff] at hy ⊢
    exact fun hm ↦ hy (h y hm)
  · simp [ht]
  · simp [OrderedSet.contains, hs]

/-- Visits the listed nodes one after the other, each with its successors, unless they were entered
before. All nodes are in a finite universe `carrier`. -/
def visitAll (succ : α → List α) (carrier : List α) (closed : ∀ x, ∀ y ∈ succ x, y ∈ carrier) :
    (xs : List α) → (∀ x ∈ xs, x ∈ carrier) → (s : DepthFirst α) →
      { t : DepthFirst α // ∀ y ∈ s.entered, y ∈ t.entered }
  | [], _, s => ⟨s, fun _ h ↦ h⟩
  | x :: xs, hxs, s =>
    if _hx : x ∈ s.entered then
      visitAll succ carrier closed xs (fun y hy ↦ hxs y (List.mem_cons_of_mem _ hy)) s
    else
      have henter : ∀ y ∈ s.entered, y ∈ (s.enter x).entered := fun y hy ↦
        OrderedSet.mem_insert.2 (Or.inl hy)
      let inner := visitAll succ carrier closed (succ x) (closed x) (s.enter x)
      have _hinner : x ∈ inner.1.entered := inner.2 x (OrderedSet.mem_insert.2 (Or.inr rfl))
      let rest := visitAll succ carrier closed xs (fun y hy ↦ hxs y (List.mem_cons_of_mem _ hy))
        (inner.1.leave x)
      ⟨rest.1, fun y hy ↦ rest.2 y (inner.2 y (henter y hy))⟩
termination_by xs _ s => (carrier.countP fun y ↦ !s.entered.contains y, xs.length)
decreasing_by
  · exact Prod.Lex.right _ (Nat.lt_succ_self _)
  · exact Prod.Lex.left _ _ (countP_lt (hxs x (by simp)) _hx
      (OrderedSet.mem_insert.2 (Or.inr rfl)) henter)
  · exact Prod.Lex.left _ _ (countP_lt (hxs x (by simp)) _hx _hinner
      fun y hy ↦ inner.2 y (henter y hy))

/-- The nodes that a visit of the listed nodes leaves, in order. -/
def order (succ : α → List α) (carrier : List α) (closed : ∀ x, ∀ y ∈ succ x, y ∈ carrier)
    (xs : List α) (hxs : ∀ x ∈ xs, x ∈ carrier) : List α :=
  (visitAll succ carrier closed xs hxs ⟨∅, []⟩).1.left

end DepthFirst

end LanguageTheory
