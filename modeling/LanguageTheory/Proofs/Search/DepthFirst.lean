import LanguageTheory.Search.DepthFirst
import Mathlib.Data.List.Basic
import Mathlib.Logic.Relation

/-!
# What a depth-first order lists

A visit leaves every node that it enters, once, and enters whatever successors lead to. A node that
was entered but not left yet leads to the nodes that are visited next. Without cycles no successor
of a node is such a node, so that all of them were left before.
-/

namespace LanguageTheory.DepthFirst

universe u

variable {α : Type u} {succ : α → List α} {carrier : List α}

/-- What a visit of `xs` makes of a state `s`: it leaves the nodes of `new`, each of which was
entered for the first time because a chain of successors leads to it. -/
structure Visited (succ : α → List α) (xs : List α) (s t : DepthFirst α) (new : List α) :
    Prop where
  left : t.left = s.left ++ new
  mem_entered : ∀ {y}, y ∈ t.entered ↔ y ∈ s.entered ∨ y ∈ new
  nodup : new.Nodup
  fresh : ∀ y ∈ new, y ∉ s.entered
  all : ∀ x ∈ xs, x ∈ t.entered
  reached : ∀ y ∈ new, ∃ x ∈ xs, Relation.ReflTransGen (fun a b ↦ b ∈ succ a) x y

namespace Visited

variable {x : α} {xs : List α} {s inner t : DepthFirst α} {new more : List α}

/-- Nothing is visited. -/
theorem nil (s : DepthFirst α) : Visited succ [] s s [] where
  left := (List.append_nil s.left).symm
  mem_entered := by simp
  nodup := List.nodup_nil
  fresh _ hy := absurd hy List.not_mem_nil
  all _ hy := absurd hy List.not_mem_nil
  reached _ hy := absurd hy List.not_mem_nil

/-- A node that was entered before is not visited again. -/
theorem skip (hx : x ∈ s.entered) (h : Visited succ xs s t new) :
    Visited succ (x :: xs) s t new := by
  refine ⟨h.left, h.mem_entered, h.nodup, h.fresh, ?_, ?_⟩
  · intro y hy
    rcases List.mem_cons.mp hy with rfl | hy
    · exact h.mem_entered.mpr (Or.inl hx)
    · exact h.all y hy
  · intro y hy
    obtain ⟨z, hz, hzy⟩ := h.reached y hy
    exact ⟨z, List.mem_cons_of_mem _ hz, hzy⟩

variable [DecidableEq α]

/-- What is entered when the successors of a new node were visited. -/
theorem mem_entered_inner (h : Visited succ (succ x) (s.enter x) inner new) {y : α} :
    y ∈ inner.entered ↔ y ∈ s.entered ∨ y = x ∨ y ∈ new := by
  rw [h.mem_entered, enter, OrderedSet.mem_insert, or_assoc]

/-- A new node is left after its successors and before the nodes that are listed behind it. -/
theorem cons (hx : x ∉ s.entered) (h : Visited succ (succ x) (s.enter x) inner new)
    (h' : Visited succ xs (inner.leave x) t more) :
    Visited succ (x :: xs) s t (new ++ x :: more) := by
  have hxnew : x ∉ new := by
    intro hm
    exact h.fresh x hm (OrderedSet.mem_insert.mpr (Or.inr rfl))
  have hmore : ∀ y ∈ more, y ∉ s.entered ∧ y ≠ x ∧ y ∉ new := by
    intro y hy
    have hfresh : y ∉ inner.entered := h'.fresh y hy
    rwa [h.mem_entered_inner, not_or, not_or] at hfresh
  constructor
  · rw [h'.left, leave, h.left, enter, List.append_assoc, List.append_assoc]
    rfl
  · intro y
    rw [h'.mem_entered, leave, h.mem_entered_inner, List.mem_append, List.mem_cons]
    constructor
    · rintro ((h | h | h) | h)
      · exact Or.inl h
      · exact Or.inr (Or.inr (Or.inl h))
      · exact Or.inr (Or.inl h)
      · exact Or.inr (Or.inr (Or.inr h))
    · rintro (h | h | h | h)
      · exact Or.inl (Or.inl h)
      · exact Or.inl (Or.inr (Or.inr h))
      · exact Or.inl (Or.inr (Or.inl h))
      · exact Or.inr h
  · rw [List.nodup_append]
    refine ⟨h.nodup, ?_, ?_⟩
    · rw [List.nodup_cons]
      exact ⟨fun hm ↦ (hmore x hm).2.1 rfl, h'.nodup⟩
    · rintro y hy z hz rfl
      rcases List.mem_cons.mp hz with rfl | hz
      · exact hxnew hy
      · exact (hmore y hz).2.2 hy
  · intro y hy
    rcases List.mem_append.mp hy with hy | hy
    · intro hm
      exact h.fresh y hy (OrderedSet.mem_insert.mpr (Or.inl hm))
    · rcases List.mem_cons.mp hy with rfl | hy
      · exact hx
      · exact (hmore y hy).1
  · intro y hy
    rcases List.mem_cons.mp hy with rfl | hy
    · exact h'.mem_entered.mpr (Or.inl (h.mem_entered_inner.mpr (Or.inr (Or.inl rfl))))
    · exact h'.all y hy
  · intro y hy
    rcases List.mem_append.mp hy with hy | hy
    · obtain ⟨z, hz, hzy⟩ := h.reached y hy
      exact ⟨x, by simp, .head hz hzy⟩
    · rcases List.mem_cons.mp hy with rfl | hy
      · exact ⟨y, by simp, .refl⟩
      · obtain ⟨z, hz, hzy⟩ := h'.reached y hy
        exact ⟨z, List.mem_cons_of_mem _ hz, hzy⟩

end Visited

section Visit

variable [DecidableEq α] (closed : ∀ x, ∀ y ∈ succ x, y ∈ carrier)

/-- A visit enters the listed nodes and what they lead to, and leaves all that it enters. -/
theorem visited_visitAll (xs : List α) (hxs : ∀ x ∈ xs, x ∈ carrier) (s : DepthFirst α) :
    ∃ new, Visited succ xs s (visitAll succ carrier closed xs hxs s).1 new := by
  fun_induction visitAll succ carrier closed xs hxs s with
  | case1 _ s => exact ⟨[], .nil s⟩
  | case2 x xs hxs s hx _ ih =>
    obtain ⟨new, h⟩ := ih
    exact ⟨new, h.skip hx⟩
  | case3 x xs hxs s hx henter inner hinner rest _ ihinner ihrest =>
    obtain ⟨new, h⟩ := ihinner
    obtain ⟨more, h'⟩ := ihrest
    exact ⟨new ++ x :: more, .cons hx h h'⟩

end Visit

/-! ### Graphs without cycles -/

/-- Every node of a list comes after all its successors. -/
def Sorted (succ : α → List α) (xs : List α) : Prop :=
  ∀ before y after, xs = before ++ y :: after → ∀ z ∈ succ y, z ∈ before

/-- The nodes that were entered but not left lead to all of `xs`. -/
def Open (succ : α → List α) (s : DepthFirst α) (xs : List α) : Prop :=
  ∀ y ∈ s.entered, y ∉ s.left → ∀ x ∈ xs, Relation.TransGen (fun a b ↦ b ∈ succ a) y x

/-- A node may be listed next when its successors were listed. -/
theorem Sorted.append_singleton {xs : List α} (h : Sorted succ xs) {x : α}
    (hx : ∀ z ∈ succ x, z ∈ xs) : Sorted succ (xs ++ [x]) := by
  intro before y after he
  have hupto : before ++ [y] <+: xs ++ [x] := ⟨after, by simp [he]⟩
  rcases List.prefix_concat_iff.mp hupto with he | ⟨rest, rfl⟩
  · obtain ⟨rfl, hlast⟩ := List.append_inj' he rfl
    obtain rfl := List.singleton_inj.mp hlast
    exact hx
  · exact h before y rest (List.append_assoc _ _ _)

section Places

variable [BEq α] [LawfulBEq α] {xs : List α} {y z : α}

/-- A successor of a listed node has an earlier place. -/
theorem Sorted.idxOf_lt (h : Sorted succ xs) (hy : y ∈ xs) (hz : z ∈ succ y) :
    xs.idxOf z < xs.idxOf y := by
  obtain ⟨before, after, rfl, hfirst⟩ := List.eq_append_cons_of_mem hy
  have hbefore : z ∈ before := h before y after rfl z hz
  have hplace : (before ++ y :: after).idxOf y = before.length := by
    rw [List.idxOf_append_of_notMem hfirst, List.idxOf_cons_self, Nat.add_zero]
  rw [hplace, List.idxOf_append_of_mem hbefore]
  exact List.idxOf_lt_length_of_mem hbefore

/-- What a chain of successors leads to has an earlier place. -/
theorem Sorted.idxOf_lt_of_transGen (h : Sorted succ xs) (hy : y ∈ xs)
    (hyz : Relation.TransGen (fun a b ↦ b ∈ succ a) y z) : xs.idxOf z < xs.idxOf y := by
  induction hyz with
  | single hz => exact h.idxOf_lt hy hz
  | @tail u v _ hv ih =>
    have hu : u ∈ xs := List.idxOf_lt_length_iff.mp (Nat.lt_of_lt_of_le ih List.idxOf_le_length)
    exact Nat.lt_trans (h.idxOf_lt hu hv) ih

end Places

variable [DecidableEq α] (closed : ∀ x, ∀ y ∈ succ x, y ∈ carrier)

/-- In a graph without cycles a visit leaves every node after all its successors. -/
theorem sorted_visitAll (acyclic : ∀ x, ¬ Relation.TransGen (fun a b ↦ b ∈ succ a) x x)
    (xs : List α) (hxs : ∀ x ∈ xs, x ∈ carrier) (s : DepthFirst α) (hopen : Open succ s xs)
    (hs : Sorted succ s.left) :
    Sorted succ (visitAll succ carrier closed xs hxs s).1.left := by
  fun_induction visitAll succ carrier closed xs hxs s with
  | case1 _ s => exact hs
  | case2 x xs hxs s hx _ ih =>
    refine ih ?_ hs
    intro y hy hleft z hz
    exact hopen y hy hleft z (List.mem_cons_of_mem _ hz)
  | case3 x xs hxs s hx henter inner hinner rest _ ihinner ihrest =>
    obtain ⟨new, hvisited⟩ := visited_visitAll closed (succ x) (closed x) (s.enter x)
    have hleft : inner.1.left = s.left ++ new := hvisited.left
    have hinnerOpen : Open succ (s.enter x) (succ x) := by
      intro y hy hyleft z hz
      rcases OrderedSet.mem_insert.mp hy with hy | rfl
      · exact (hopen y hy hyleft x (by simp)).tail hz
      · exact .single hz
    -- A successor that was entered and not left would lead back to `x`.
    have hsucc : ∀ z ∈ succ x, z ∈ inner.1.left := by
      intro z hz
      rw [hleft, List.mem_append]
      rcases hvisited.mem_entered_inner.mp (hvisited.all z hz) with hm | rfl | hm
      · by_cases hzleft : z ∈ s.left
        · exact Or.inl hzleft
        · exact absurd ((hopen z hm hzleft x (by simp)).tail hz) (acyclic z)
      · exact absurd (.single hz) (acyclic z)
      · exact Or.inr hm
    have hrestOpen : Open succ (inner.1.leave x) xs := by
      intro y hy hyleft z hz
      have hyleft : y ∉ inner.1.left ++ [x] := hyleft
      rw [hleft, List.mem_append, List.mem_append, List.mem_singleton, not_or, not_or] at hyleft
      rcases hvisited.mem_entered_inner.mp hy with hy | hy | hy
      · exact hopen y hy hyleft.1.1 z (List.mem_cons_of_mem _ hz)
      · exact absurd hy hyleft.2
      · exact absurd hy hyleft.1.2
    exact ihrest hrestOpen ((ihinner hinnerOpen hs).append_singleton hsucc)

/-! ### The order -/

/-- The order is what a visit from the empty state leaves. -/
theorem visited_order (xs : List α) (hxs : ∀ x ∈ xs, x ∈ carrier) :
    Visited succ xs ⟨∅, []⟩ (visitAll succ carrier closed xs hxs ⟨∅, []⟩).1
      (order succ carrier closed xs hxs) := by
  obtain ⟨new, h⟩ := visited_visitAll closed xs hxs ⟨∅, []⟩
  have hnew : order succ carrier closed xs hxs = new := h.left
  rw [hnew]
  exact h

/-- The order lists each of the given nodes. -/
theorem mem_order {xs : List α} {hxs : ∀ x ∈ xs, x ∈ carrier} {x : α} (hx : x ∈ xs) :
    x ∈ order succ carrier closed xs hxs := by
  have h := visited_order closed xs hxs
  have hentered := h.mem_entered.mp (h.all x hx)
  exact hentered.resolve_left (OrderedSet.notMem_empty x)

/-- The order lists nothing twice. -/
theorem nodup_order (xs : List α) (hxs : ∀ x ∈ xs, x ∈ carrier) :
    (order succ carrier closed xs hxs).Nodup := (visited_order closed xs hxs).nodup

/-- The order lists nothing but what the given nodes lead to. -/
theorem exists_of_mem_order {xs : List α} {hxs : ∀ x ∈ xs, x ∈ carrier} {y : α}
    (hy : y ∈ order succ carrier closed xs hxs) :
    ∃ x ∈ xs, Relation.ReflTransGen (fun a b ↦ b ∈ succ a) x y :=
  (visited_order closed xs hxs).reached y hy

/-- In a graph without cycles the order lists every node after all its successors. -/
theorem sorted_order (acyclic : ∀ x, ¬ Relation.TransGen (fun a b ↦ b ∈ succ a) x x)
    (xs : List α) (hxs : ∀ x ∈ xs, x ∈ carrier) :
    Sorted succ (order succ carrier closed xs hxs) := by
  apply sorted_visitAll closed acyclic
  · intro y hy
    exact absurd hy (OrderedSet.notMem_empty y)
  · intro before y after he
    simp at he

end LanguageTheory.DepthFirst
