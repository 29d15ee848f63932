import LanguageTheory.Collections.Closure
import LanguageTheory.Search.Agenda
import Mathlib.Logic.Relation

/-!
# What closures and queue searches reach

A closure under successors has exactly the elements to which a chain of successors leads, and a
breadth-first search finds a goal exactly when such a chain leads to one. A saturated queue knows
all that a further round would find.
-/

namespace LanguageTheory

universe u

namespace OrderedSet

variable {α : Type u} [DecidableEq α]

/-- A closure under successors has what chains of successors lead to from its seed. -/
theorem mem_closure_successors_iff {succ : α → List α} {bounded : Bounded (successors succ)}
    {s : OrderedSet α} {x : α} :
    x ∈ closure (successors succ) bounded s ↔
      ∃ y ∈ s, Relation.ReflTransGen (fun a b ↦ b ∈ succ a) y x := by
  constructor
  · revert x
    apply closure_induction
    · intro x hx
      exact ⟨x, hx, .refl⟩
    · intro t ht x hx
      obtain ⟨a, ha, hax⟩ := mem_successors.mp hx
      obtain ⟨y, hy, hya⟩ := ht a ha
      exact ⟨y, hy, hya.tail hax⟩
  · rintro ⟨y, hy, hyx⟩
    induction hyx with
    | refl => exact subset_closure _ bounded s y hy
    | tail _ hbc ih =>
      exact expand_closure_subset _ bounded s _ (mem_successors.mpr ⟨_, ih, hbc⟩)

end OrderedSet

namespace Agenda

variable {α : Type u} [DecidableEq α] [Hashable α]

/-- The items that were taken out, in order. -/
def taken (q : Agenda α) : List α := q.visited.take q.next

/-- Every item that was taken out is no goal and has had its successors admitted. -/
def Worked (goal : α → Bool) (succ : α → List α) (q : Agenda α) : Prop :=
  ∀ x ∈ q.taken, goal x = false ∧ ∀ y ∈ succ x, y ∈ q.visited

/-- Admitting an item does not change how many were taken out. -/
theorem next_push (q : Agenda α) (x : α) : (q.push x).next = q.next := by
  rw [push]
  split <;> rfl

/-- Admitting an item takes none out. -/
theorem taken_push (q : Agenda α) (x : α) : (q.push x).taken = q.taken := by
  by_cases h : x ∈ q.visited
  · rw [push_of_mem h]
  · have hl : q.next ≤ q.visited.length := by
      rw [visited, Array.length_toList]
      exact q.next_le
    rw [taken, next_push, visited_push_of_notMem h, List.take_append_of_le_length hl, taken]

/-- Admitting several items takes none out. -/
theorem taken_pushMany (q : Agenda α) (xs : List α) : (q.pushMany xs).taken = q.taken := by
  induction xs generalizing q with
  | nil => rfl
  | cons x xs ih =>
    change ((q.push x).pushMany xs).taken = q.taken
    rw [ih, taken_push]

/-- Admitting several items does not change how many were taken out. -/
theorem next_pushMany (q : Agenda α) (xs : List α) : (q.pushMany xs).next = q.next := by
  induction xs generalizing q with
  | nil => rfl
  | cons x xs ih => exact (ih (q.push x)).trans (next_push q x)

/-- The item that is taken out comes after those that were taken out before. -/
theorem taken_of_pop? {q r : Agenda α} {x : α} (h : q.pop? = some (x, r)) :
    r.taken = q.taken ++ [x] := by
  obtain ⟨hlt, rfl, rfl⟩ := pop?_eq_some_iff.mp h
  have hl : q.next < q.items.toList.length := by simpa using hlt
  rw [taken, taken, visited, visited, List.take_succ_eq_append_getElem hl, Array.getElem_toList]

/-- When nothing waits, everything that was admitted has been taken out. -/
theorem taken_of_pop?_eq_none {q : Agenda α} (h : q.pop? = none) : q.taken = q.visited := by
  have hge := pop?_eq_none_iff.mp h
  rw [taken, visited]
  exact List.take_of_length_le (by rwa [Array.length_toList])

/-- The item that is taken out is the one that waited longest. -/
theorem peek?_of_pop? {q r : Agenda α} {x : α} (h : q.pop? = some (x, r)) :
    q.peek? = some x := by
  obtain ⟨hlt, rfl, _⟩ := pop?_eq_some_iff.mp h
  exact Array.getElem?_eq_getElem hlt

/-- When nothing can be taken out, nothing waits. -/
theorem peek?_of_pop?_eq_none {q : Agenda α} (h : q.pop? = none) : q.peek? = none :=
  Array.getElem?_eq_none (pop?_eq_none_iff.mp h)

/-- An item that waits was admitted. -/
theorem mem_visited_of_peek? {q : Agenda α} {x : α} (h : q.peek? = some x) : x ∈ q.visited :=
  Array.mem_toList_iff.mpr (Array.mem_of_getElem? h)

section Work

variable (goal : α → Bool) {succ : α → List α} {first : List α} (bounded : Bounded succ first)
  {q rest : Agenda α} (inside : ∀ x ∈ q.visited, x ∈ bounded.choose)

/-- With nothing that waits there is no work. -/
theorem work_of_pop?_eq_none (h : q.pop? = none) : work goal succ bounded q inside = q := by
  rw [work.eq_def]
  split
  · rfl
  · next h' =>
    rw [h] at h'
    cases h'

/-- Work on an item that is no goal admits its successors and goes on. -/
theorem work_of_pop?_eq_some {x : α} (h : q.pop? = some (x, rest)) (hx : goal x = false) :
    work goal succ bounded q inside = work goal succ bounded (rest.pushMany (succ x))
      (bounded.inside_pushMany h inside) := by
  rw [work.eq_def]
  split
  · next h' =>
    rw [h] at h'
    cases h'
  · next h' =>
    cases h.symm.trans h'
    rw [hx, if_neg Bool.false_ne_true]

end Work

variable {goal : α → Bool} {succ : α → List α} {first : List α}

/-- One round of work keeps what is known of the items that were taken out. -/
theorem Worked.step {q r : Agenda α} {x : α} (h : q.pop? = some (x, r)) (hx : goal x = false)
    (hq : Worked goal succ q) : Worked goal succ (r.pushMany (succ x)) := by
  intro y hy
  rw [taken_pushMany, taken_of_pop? h] at hy
  rcases List.mem_append.mp hy with hy | hy
  · obtain ⟨hgoal, hsucc⟩ := hq y hy
    refine ⟨hgoal, fun z hz ↦ mem_visited_pushMany.mpr (Or.inl ?_)⟩
    rw [visited_of_pop? h]
    exact hsucc z hz
  · rw [List.mem_singleton] at hy
    subst hy
    exact ⟨hx, fun z hz ↦ mem_visited_pushMany.mpr (Or.inr hz)⟩

/-- Work ends with a goal in front or with nothing that waits. -/
theorem worked_work (bounded : Bounded succ first) {q : Agenda α}
    (inside : ∀ x ∈ q.visited, x ∈ bounded.choose) (hq : Worked goal succ q) :
    Worked goal succ (work goal succ bounded q inside) ∧
      ((work goal succ bounded q inside).pop? = none ∨
        ∃ x, (work goal succ bounded q inside).peek? = some x ∧ goal x = true) := by
  fun_induction work goal succ bounded q inside with
  | case1 q _ h => exact ⟨hq, Or.inl h⟩
  | case2 q _ x rest h hx => exact ⟨hq, Or.inr ⟨x, peek?_of_pop? h, hx⟩⟩
  | case3 q _ x rest h hx ih => exact ih (hq.step h (Bool.eq_false_iff.mpr hx))

/-- Work forgets no item. -/
theorem visited_subset_work {bounded : Bounded succ first} {q : Agenda α}
    {inside : ∀ x ∈ q.visited, x ∈ bounded.choose} {x : α} (hx : x ∈ q.visited) :
    x ∈ (work goal succ bounded q inside).visited := by
  fun_induction work goal succ bounded q inside with
  | case1 q _ h => exact hx
  | case2 q _ y rest h hy => exact hx
  | case3 q _ y rest h hy ih =>
    apply ih
    rw [mem_visited_pushMany, visited_of_pop? h]
    exact Or.inl hx

/-- Work admits only what chains of successors lead to. -/
theorem chain_of_mem_work {bounded : Bounded succ first} {q : Agenda α}
    {inside : ∀ x ∈ q.visited, x ∈ bounded.choose} {y : α}
    (hy : y ∈ (work goal succ bounded q inside).visited) :
    ∃ x ∈ q.visited, Relation.ReflTransGen (fun a b ↦ b ∈ succ a) x y := by
  fun_induction work goal succ bounded q inside with
  | case1 q _ h => exact ⟨y, hy, .refl⟩
  | case2 q _ x rest h hx => exact ⟨y, hy, .refl⟩
  | case3 q _ x rest h hx ih =>
    obtain ⟨z, hz, hzy⟩ := ih hy
    rw [mem_visited_pushMany, visited_of_pop? h] at hz
    rcases hz with hz | hz
    · exact ⟨z, hz, hzy⟩
    · exact ⟨x, mem_of_pop? h, .head hz hzy⟩

/-- When everything was taken out, chains of successors lead to nothing new. -/
theorem Worked.mem_of_chain {q : Agenda α} {x y : α} (hq : Worked goal succ q)
    (hall : q.taken = q.visited) (hx : x ∈ q.visited)
    (hxy : Relation.ReflTransGen (fun a b ↦ b ∈ succ a) x y) : y ∈ q.visited := by
  induction hxy with
  | refl => exact hx
  | tail _ hbc ih =>
    rw [← hall] at ih
    exact (hq _ ih).2 _ hbc

/-- Nothing is taken out of a queue that holds the items of a list. -/
theorem taken_ofList (xs : List α) : (ofList xs).taken = [] := by
  rw [ofList, taken_pushMany]
  rfl

private theorem worked_ofList (goal : α → Bool) (succ : α → List α) (first : List α) :
    Worked goal succ (ofList first) := by
  intro x hx
  rw [taken_ofList] at hx
  cases hx

/-- A search finds a goal exactly when a chain of successors leads to one. -/
theorem canReach_iff {bounded : Bounded succ first} :
    canReach goal succ first bounded = true ↔
      ∃ x ∈ first, ∃ y, Relation.ReflTransGen (fun a b ↦ b ∈ succ a) x y ∧ goal y = true := by
  obtain ⟨hworked, hend⟩ := worked_work bounded (fun x hx ↦
    bounded.choose_spec.1 x (mem_visited_ofList.1 hx)) (worked_ofList goal succ first)
  rw [canReach, exploreUntil]
  constructor
  · intro h
    obtain ⟨y, hy⟩ := Option.isSome_iff_exists.mp h
    obtain ⟨x, hx, hxy⟩ := chain_of_mem_work (mem_visited_of_peek? hy)
    rcases hend with hend | ⟨z, hz, hgoal⟩
    · rw [peek?_of_pop?_eq_none hend] at hy
      cases hy
    · rw [hz] at hy
      cases hy
      exact ⟨x, mem_visited_ofList.mp hx, y, hxy, hgoal⟩
  · rintro ⟨x, hx, y, hxy, hgoal⟩
    rcases hend with hend | ⟨z, hz, _⟩
    · -- Nothing waits, so the items admitted are closed under successors and hold no goal.
      have hall := taken_of_pop?_eq_none hend
      have hy := hworked.mem_of_chain hall (visited_subset_work (mem_visited_ofList.mpr hx)) hxy
      rw [← hall] at hy
      rw [(hworked y hy).1] at hgoal
      cases hgoal
    · rw [hz]
      rfl

/-- A search without a goal admits what chains of successors lead to. -/
theorem mem_visited_explore_iff {bounded : Bounded succ first} {y : α} :
    y ∈ (explore succ first bounded).visited ↔
      ∃ x ∈ first, Relation.ReflTransGen (fun a b ↦ b ∈ succ a) x y := by
  obtain ⟨hworked, hend⟩ := worked_work bounded (fun x hx ↦
    bounded.choose_spec.1 x (mem_visited_ofList.1 hx)) (worked_ofList (fun _ ↦ false) succ first)
  rw [explore, exploreUntil]
  constructor
  · intro hy
    obtain ⟨x, hx, hxy⟩ := chain_of_mem_work hy
    exact ⟨x, mem_visited_ofList.mp hx, hxy⟩
  · rintro ⟨x, hx, hxy⟩
    rcases hend with hend | ⟨z, _, hz⟩
    · exact hworked.mem_of_chain (taken_of_pop?_eq_none hend)
        (visited_subset_work (mem_visited_ofList.mpr hx)) hxy
    · cases hz

/-- Admitting several items keeps the order of those that were admitted before. -/
theorem prefix_visited_pushMany (q : Agenda α) (xs : List α) :
    q.visited <+: (q.pushMany xs).visited := by
  induction xs generalizing q with
  | nil => exact List.prefix_rfl
  | cons x xs ih =>
    refine List.IsPrefix.trans ?_ (ih (q.push x))
    by_cases h : x ∈ q.visited
    · exact (push_of_mem h).symm ▸ List.prefix_rfl
    · rw [visited_push_of_notMem h]
      exact List.prefix_append _ _

/-- Work keeps the order of the items that were admitted before. -/
theorem prefix_visited_work (goal : α → Bool) (bounded : Bounded succ first) {q : Agenda α}
    (inside : ∀ x ∈ q.visited, x ∈ bounded.choose) :
    q.visited <+: (work goal succ bounded q inside).visited := by
  fun_induction work goal succ bounded q inside with
  | case1 q _ h => exact List.prefix_rfl
  | case2 q _ x rest h hx => exact List.prefix_rfl
  | case3 q _ x rest h hx ih =>
    rw [← visited_of_pop? h]
    exact (prefix_visited_pushMany rest (succ x)).trans ih

/-- A search from one item admits this item first. -/
theorem head?_visited_explore {x : α} {bounded : Bounded succ [x]} :
    (explore succ [x] bounded).visited.head? = some x := by
  have hvisited : (ofList [x]).visited = [x] := visited_push_of_notMem List.not_mem_nil
  obtain ⟨rest, hrest⟩ := prefix_visited_work (fun _ ↦ false) bounded fun y hy ↦
    bounded.choose_spec.1 y (mem_visited_ofList.1 hy)
  rw [explore, exploreUntil, ← hrest, hvisited]
  rfl

/-- A saturated queue knows what a further round finds. -/
theorem round_saturate_subset {round : Agenda α → List α} {bounded : BoundedRounds round}
    {q : Agenda α} :
    ∀ x ∈ round (saturate round bounded q), x ∈ (saturate round bounded q).visited := by
  fun_induction saturate round bounded q with
  | case1 q next h =>
    intro x hx
    have hfront := prefix_visited_pushMany q (round q)
    have hlength : q.visited.length = (q.pushMany (round q)).visited.length := by
      rw [visited, visited, Array.length_toList, Array.length_toList]
      exact h.symm
    rw [hfront.eq_of_length hlength]
    exact mem_visited_pushMany.mpr (Or.inr hx)
  | case2 q next h ih => exact ih

/-- Whatever holds of the first items and is kept by the rounds holds of the saturated queue. -/
theorem saturate_induction {round : Agenda α → List α} {bounded : BoundedRounds round}
    {motive : α → Prop} {q : Agenda α} (first : ∀ x ∈ q.visited, motive x)
    (step : ∀ r : Agenda α, (∀ x ∈ r.visited, motive x) → ∀ x ∈ round r, motive x) :
    ∀ x ∈ (saturate round bounded q).visited, motive x := by
  fun_induction saturate round bounded q with
  | case1 q next h => exact first
  | case2 q next h ih =>
    apply ih
    intro x hx
    rcases mem_visited_pushMany.mp hx with hx | hx
    · exact first x hx
    · exact step q first x hx

end Agenda

end LanguageTheory
