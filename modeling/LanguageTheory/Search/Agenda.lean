import LanguageTheory.Collections.Universe
import Std.Data.HashMap

/-!
# Queues for breadth-first search

An `Agenda` is a queue that admits every item once: it remembers the items that were taken out, so
a later push of one of them has no effect. `items` lists all items ever admitted, in order; the
first `next` of them have been taken out. Working an agenda off visits what is reachable from its
items, nearest first.

Spec guidance: `SPEC_FULL.md` §4.2.
-/

namespace LanguageTheory

universe u

/-- Queue of distinct items, with the items already taken out still listed in front (§4.2). -/
structure Agenda (α : Type u) [DecidableEq α] [Hashable α] where
  items : Array α
  index : Std.HashMap α Nat
  next : Nat
  index_iff : ∀ (x : α) (i : Nat), index[x]? = some i ↔ items[i]? = some x
  next_le : next ≤ items.size

namespace Agenda

variable {α : Type u} [DecidableEq α] [Hashable α]

/-- The agenda that never admitted an item. -/
def empty : Agenda α where
  items := #[]
  index := ∅
  next := 0
  index_iff := by simp
  next_le := Nat.le_refl 0

instance : EmptyCollection (Agenda α) := ⟨empty⟩

instance : Inhabited (Agenda α) := ⟨∅⟩

/-- All items ever admitted, in the order of their admission. -/
def visited (q : Agenda α) : List α := q.items.toList

/-- The items that are waiting. -/
def pending (q : Agenda α) : List α := q.items.toList.drop q.next

/-- Number of waiting items. -/
def size (q : Agenda α) : Nat := q.items.size - q.next

/-- Whether an item was ever admitted. -/
def contains (q : Agenda α) (x : α) : Bool := q.index.contains x

/-- Place of an item in the order of admission. -/
def idxOf? (q : Agenda α) (x : α) : Option Nat := q.index[x]?

/-- The item that waits longest. -/
def peek? (q : Agenda α) : Option α := q.items[q.next]?

/-- Admits `x` at the end of the queue, unless it was admitted before. -/
def push (q : Agenda α) (x : α) : Agenda α :=
  if h : q.index[x]? = none then
    { items := q.items.push x
      index := q.index.insert x q.items.size
      next := q.next
      index_iff := by
        intro y i
        rw [Std.HashMap.getElem?_insert, Array.getElem?_push]
        by_cases hxy : x = y
        · subst hxy
          by_cases hi : i = q.items.size
          · simp [hi]
          · have hn : q.items[i]? ≠ some x := fun he ↦ by
              rw [(q.index_iff x i).2 he] at h
              cases h
            simp [hi, hn, Ne.symm hi]
        · by_cases hi : i = q.items.size
          · have hn : q.index[y]? ≠ some i := fun he ↦ by
              have hy := (q.index_iff y i).1 he
              simp [hi] at hy
            simp [hxy, hi] at hn ⊢
            exact hn
          · simp [hxy, hi, q.index_iff]
      next_le := by
        have := q.next_le
        simp only [Array.size_push]
        omega }
  else q

/-- Admits `x` if need be and tells whether it is new. -/
def offer (q : Agenda α) (x : α) : Bool × Agenda α :=
  match q.index[x]? with
  | some _ => (false, q)
  | none => (true, q.push x)

/-- Admits several items, one after the other. -/
def pushMany (q : Agenda α) (xs : List α) : Agenda α := xs.foldl push q

/-- Admits `x` if need be and gives its place in the order of admission. -/
def intern (q : Agenda α) (x : α) : Nat × Agenda α :=
  match q.index[x]? with
  | some i => (i, q)
  | none => (q.items.size, q.push x)

/-- Takes out the item that waits longest. -/
def pop? (q : Agenda α) : Option (α × Agenda α) :=
  if h : q.next < q.items.size then
    some (q.items[q.next], { q with next := q.next + 1, next_le := h })
  else none

/-- The agenda that holds the items of a list. -/
def ofList (xs : List α) : Agenda α := (∅ : Agenda α).pushMany xs

/-- The order of admission gives each admitted item its own place. -/
theorem nodup_visited (q : Agenda α) : q.visited.Nodup := by
  rw [visited, List.nodup_iff_pairwise_ne, List.pairwise_iff_getElem]
  intro i j hi hj hij he
  rw [Array.length_toList] at hi hj
  have h₁ := (q.index_iff q.items[i] i).2 (Array.getElem?_eq_getElem hi)
  have h₂ := (q.index_iff q.items[j] j).2 (Array.getElem?_eq_getElem hj)
  rw [Array.getElem_toList, Array.getElem_toList] at he
  rw [he, h₂] at h₁
  exact Nat.ne_of_gt hij (Option.some.inj h₁)

/-- An item is known exactly when it is listed. -/
@[simp]
theorem contains_iff {q : Agenda α} {x : α} : q.contains x = true ↔ x ∈ q.visited := by
  rw [contains, Std.HashMap.contains_eq_isSome_getElem?, Option.isSome_iff_exists, visited,
    Array.mem_toList_iff, Array.mem_iff_getElem?]
  exact exists_congr fun i ↦ q.index_iff x i

/-- The place of an item is where it is listed. -/
theorem idxOf?_eq_some_iff {q : Agenda α} {x : α} {i : Nat} :
    q.idxOf? x = some i ↔ q.visited[i]? = some x := by
  rw [idxOf?, q.index_iff, visited, Array.getElem?_toList]

/-- An item has no place exactly when it is not listed. -/
theorem idxOf?_eq_none_iff {q : Agenda α} {x : α} : q.idxOf? x = none ↔ x ∉ q.visited := by
  rw [← contains_iff, contains, Std.HashMap.contains_eq_isSome_getElem?, idxOf?]
  simp

/-- A known item is not admitted again. -/
theorem push_of_mem {q : Agenda α} {x : α} (h : x ∈ q.visited) : q.push x = q :=
  dif_neg fun hn ↦ idxOf?_eq_none_iff.1 hn h

/-- A new item is listed last. -/
theorem visited_push_of_notMem {q : Agenda α} {x : α} (h : x ∉ q.visited) :
    (q.push x).visited = q.visited ++ [x] := by
  have hn : q.index[x]? = none := idxOf?_eq_none_iff.2 h
  rw [push, dif_pos hn]
  simp [visited]

/-- The items known after a push. -/
@[simp]
theorem mem_visited_push {q : Agenda α} {x y : α} :
    y ∈ (q.push x).visited ↔ y ∈ q.visited ∨ y = x := by
  by_cases h : x ∈ q.visited
  · rw [push_of_mem h]
    exact ⟨Or.inl, fun hy ↦ hy.elim id fun e ↦ e ▸ h⟩
  · rw [visited_push_of_notMem h, List.mem_append, List.mem_singleton]

/-- The items known after several pushes. -/
@[simp]
theorem mem_visited_pushMany {q : Agenda α} {xs : List α} {y : α} :
    y ∈ (q.pushMany xs).visited ↔ y ∈ q.visited ∨ y ∈ xs := by
  induction xs generalizing q with
  | nil => simp [pushMany]
  | cons x xs ih =>
    have h := ih (q := q.push x)
    simp only [pushMany, List.foldl_cons] at h ⊢
    rw [h, mem_visited_push, List.mem_cons, or_assoc]

/-- An item is admitted if need be when its place is asked for. -/
theorem snd_intern (q : Agenda α) (x : α) : (q.intern x).2 = q.push x := by
  unfold intern
  cases h : q.index[x]? with
  | none => rfl
  | some i => exact (push_of_mem (List.mem_of_getElem? (idxOf?_eq_some_iff.1 h))).symm

/-- The place of an item that is admitted if need be is where it is listed then. -/
theorem getElem?_visited_push (q : Agenda α) (x : α) :
    (q.push x).visited[(q.intern x).1]? = some x := by
  unfold intern
  cases h : q.index[x]? with
  | none =>
    have hlength : q.visited.length = q.items.size := Array.length_toList
    rw [visited_push_of_notMem (idxOf?_eq_none_iff.1 h), ← hlength, List.getElem?_concat_length]
  | some i =>
    have hi : q.visited[i]? = some x := idxOf?_eq_some_iff.1 h
    rw [push_of_mem (List.mem_of_getElem? hi), hi]

/-- Known items are not admitted again. -/
theorem pushMany_of_subset {q : Agenda α} {xs : List α} (h : ∀ x ∈ xs, x ∈ q.visited) :
    q.pushMany xs = q := by
  induction xs with
  | nil => rfl
  | cons x xs ih =>
    change (q.push x).pushMany xs = q
    rw [push_of_mem (h x (by simp))]
    exact ih fun y hy ↦ h y (by simp [hy])

/-- No item is taken out exactly if none waits. -/
theorem pop?_eq_none_iff {q : Agenda α} : q.pop? = none ↔ q.items.size ≤ q.next := by
  simp [pop?]

/-- The item that is taken out is the first one that waits. -/
theorem pop?_eq_some_iff {q r : Agenda α} {x : α} :
    q.pop? = some (x, r) ↔ ∃ h : q.next < q.items.size,
      x = q.items[q.next] ∧ r = { q with next := q.next + 1, next_le := h } := by
  unfold pop?
  split
  · next h => simp [h, eq_comm]
  · next h => simp [h]

/-- Taking an item out keeps it listed. -/
theorem visited_of_pop? {q r : Agenda α} {x : α} (h : q.pop? = some (x, r)) :
    r.visited = q.visited := by
  obtain ⟨_, _, rfl⟩ := pop?_eq_some_iff.1 h
  rfl

/-- Taking an item out leaves one item less waiting. -/
theorem size_of_pop? {q r : Agenda α} {x : α} (h : q.pop? = some (x, r)) :
    r.size + 1 = q.size := by
  obtain ⟨hlt, _, rfl⟩ := pop?_eq_some_iff.1 h
  simp only [size]
  omega

/-- A search is bounded when some finite universe has its first items and is closed under
successors. -/
def Bounded (succ : α → List α) (first : List α) : Prop :=
  ∃ carrier : List α,
    (∀ x ∈ first, x ∈ carrier) ∧ ∀ x ∈ carrier, ∀ y ∈ succ x, y ∈ carrier

omit [DecidableEq α] [Hashable α] in
/-- A search is bounded when all successors are in one finite universe. -/
theorem Bounded.of_forall {succ : α → List α} (carrier : List α)
    (h : ∀ x, ∀ y ∈ succ x, y ∈ carrier) (first : List α) : Bounded succ first :=
  ⟨first ++ carrier, fun _ hx ↦ List.mem_append_left _ hx,
    fun x _ y hy ↦ List.mem_append_right _ (h x y hy)⟩

omit [DecidableEq α] [Hashable α] in
/-- A search is bounded when it stays inside a property of finitely many items. -/
theorem Bounded.of_inside {succ : α → List α} {first : List α} (inside : α → Prop)
    (carrier : List α) (finite : ∀ x, inside x → x ∈ carrier)
    (hfirst : ∀ x ∈ first, inside x) (hsucc : ∀ x, inside x → ∀ y ∈ succ x, inside y) :
    Bounded succ first := by
  have := Classical.propDecidable
  refine ⟨carrier.filter fun x ↦ decide (inside x), fun x hx ↦ ?_, fun x hx y hy ↦ ?_⟩
  · have hi := hfirst x hx
    exact List.mem_filter.2 ⟨finite x hi, decide_eq_true hi⟩
  · have hi := hsucc x (of_decide_eq_true (List.mem_filter.1 hx).2) y hy
    exact List.mem_filter.2 ⟨finite y hi, decide_eq_true hi⟩

/-- An item that is taken out was admitted. -/
theorem mem_of_pop? {q r : Agenda α} {x : α} (h : q.pop? = some (x, r)) : x ∈ q.visited := by
  obtain ⟨hlt, rfl, _⟩ := pop?_eq_some_iff.1 h
  exact Array.mem_toList_iff.2 (Array.getElem_mem hlt)

section Step

variable {succ : α → List α} {first : List α} (bounded : Bounded succ first) {q rest : Agenda α}
  {x : α} (h : q.pop? = some (x, rest)) (inside : ∀ y ∈ q.visited, y ∈ bounded.choose)
include h inside

/-- A search stays in its finite universe when the successors of an item are admitted. -/
theorem Bounded.inside_pushMany :
    ∀ y ∈ (rest.pushMany (succ x)).visited, y ∈ bounded.choose := by
  intro y hy
  rcases mem_visited_pushMany.1 hy with hy | hy
  · exact inside y (visited_of_pop? h ▸ hy)
  · exact bounded.choose_spec.2 x (inside x (mem_of_pop? h)) y hy

/-- When the successors of an item are admitted, either fewer items are unknown or fewer wait. -/
theorem Bounded.lex_pushMany : Prod.Lex (· < ·) (· < ·)
    (bounded.choose.countP fun y ↦ !(rest.pushMany (succ x)).contains y,
      (rest.pushMany (succ x)).size)
    (bounded.choose.countP fun y ↦ !q.contains y, q.size) := by
  have hv := visited_of_pop? h
  by_cases hall : ∀ y ∈ succ x, y ∈ rest.visited
  · rw [pushMany_of_subset hall]
    have hc : (fun y ↦ !rest.contains y) = fun y ↦ !q.contains y := by
      funext y
      congr 1
      rw [Bool.eq_iff_iff, contains_iff, contains_iff, hv]
    rw [hc]
    have := size_of_pop? h
    exact Prod.Lex.right _ (by omega)
  · refine Prod.Lex.left _ _ ?_
    obtain ⟨y, hy, hn⟩ : ∃ y ∈ succ x, y ∉ rest.visited :=
      Classical.byContradiction fun he ↦ hall fun y hy ↦
        Classical.byContradiction fun hn ↦ he ⟨y, hy, hn⟩
    have hin := bounded.choose_spec.2 x (inside x (mem_of_pop? h)) y hy
    refine Universe.countP_lt_countP ?_ hin ?_ ?_
    · intro z hz
      simp only [Bool.not_eq_true', ← Bool.not_eq_true, contains_iff, mem_visited_pushMany] at hz ⊢
      exact fun hm ↦ hz (Or.inl (hv ▸ hm))
    · simp [hy]
    · rw [hv] at hn
      simp [← contains_iff] at hn
      simp [hn]

end Step

/-- Takes items out and admits their successors until the queue is empty or its next item is
a goal; everything admitted so far is in the finite universe of the search. -/
def work (goal : α → Bool) (succ : α → List α) {first : List α} (bounded : Bounded succ first)
    (q : Agenda α) (inside : ∀ x ∈ q.visited, x ∈ bounded.choose) : Agenda α :=
  match h : q.pop? with
  | none => q
  | some (x, rest) =>
    if goal x then q
    else work goal succ bounded (rest.pushMany (succ x)) (bounded.inside_pushMany h inside)
termination_by (bounded.choose.countP fun x ↦ !q.contains x, q.size)
decreasing_by exact bounded.lex_pushMany h inside

/-- An agenda that holds the items of a list knows them only. -/
theorem mem_visited_ofList {xs : List α} {x : α} : x ∈ (ofList xs).visited ↔ x ∈ xs := by
  rw [ofList, mem_visited_pushMany]
  exact ⟨fun h ↦ h.elim (fun h ↦ nomatch h) id, Or.inr⟩

/-- Works the first items and their successors off until the next item is a goal or none is
left. -/
def exploreUntil (goal : α → Bool) (succ : α → List α) (first : List α)
    (bounded : Bounded succ first) : Agenda α :=
  work goal succ bounded (ofList first) fun x hx ↦
    bounded.choose_spec.1 x (mem_visited_ofList.1 hx)

/-- Everything that is reachable from the first items, in the order of a breadth-first search. -/
def explore (succ : α → List α) (first : List α) (bounded : Bounded succ first) : Agenda α :=
  exploreUntil (fun _ ↦ false) succ first bounded

/-- Whether a goal is reachable from the first items. -/
def canReach (goal : α → Bool) (succ : α → List α) (first : List α)
    (bounded : Bounded succ first) : Bool :=
  (exploreUntil goal succ first bounded).peek?.isSome

/-- The rounds of a saturation are bounded when all that they find is in one finite universe. -/
def BoundedRounds (round : Agenda α → List α) : Prop :=
  ∃ carrier : List α, ∀ q, ∀ x ∈ round q, x ∈ carrier

/-- Admits what the rounds find until a round finds nothing new. -/
def saturate (round : Agenda α → List α) (bounded : BoundedRounds round) (q : Agenda α) :
    Agenda α :=
  let next := q.pushMany (round q)
  if next.items.size = q.items.size then q else saturate round bounded next
termination_by bounded.choose.countP fun x ↦ !q.contains x
decreasing_by
  rename_i h
  obtain ⟨x, hx, hn⟩ : ∃ x ∈ round q, x ∉ q.visited :=
    Classical.byContradiction fun he ↦ h (congrArg (fun r ↦ r.items.size)
      (pushMany_of_subset fun x hx ↦ Classical.byContradiction fun hn ↦ he ⟨x, hx, hn⟩))
  refine Universe.countP_lt_countP ?_ (bounded.choose_spec q x hx) ?_ ?_
  · intro y hy
    simp only [Bool.not_eq_true', ← Bool.not_eq_true, contains_iff, mem_visited_pushMany] at hy ⊢
    exact fun hm ↦ hy (Or.inl hm)
  · simp [hx]
  · simp [← contains_iff] at hn
    simp [hn]

end Agenda

end LanguageTheory
