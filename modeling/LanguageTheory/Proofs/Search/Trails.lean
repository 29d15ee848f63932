import LanguageTheory.Proofs.Collections.Table
import LanguageTheory.Search.Trail
import Mathlib.Logic.Relation

/-!
# Paths back to the root

A graph is explored in rounds, each of which takes a node out and pushes its edges. The edge by
which a node is reached comes from a node that was taken out before. Every recorded source is
therefore listed before its target, and following the recorded edges leads back to the root.
-/

namespace LanguageTheory.Trail

universe u v

variable {α : Type u} {β : Type v} [DecidableEq α] {t : Trail α β} {x y : α}

/-! ### Exploration -/

/-- A node is known when it is listed. -/
theorem contains_iff : t.contains x = true ↔ x ∈ t.reached.keys := Table.contains_iff

/-- The start of an exploration knows the root only. -/
theorem contains_start_iff {root : α} :
    (start root : Trail α β).contains x = true ↔ x = root := by
  rw [contains_iff]
  exact List.mem_singleton

omit [DecidableEq α] in
/-- The node that waits longest is listed. -/
theorem mem_keys_of_peek? (h : t.peek? = some x) : x ∈ t.reached.keys := List.mem_of_getElem? h

omit [DecidableEq α] in
/-- A node that is taken out waited longest. -/
theorem peek?_of_pop? {rest : Trail α β} (h : t.pop? = some (x, rest)) : t.peek? = some x := by
  unfold pop? at h
  split at h
  · cases h
  · next y hy =>
    cases h
    exact hy

/-- What holds of a trail and is kept by every step of an exploration holds at its end. -/
theorem exploreUntil_induction {goal : α → Bool} {edges : α → List (β × α)}
    (bounded : Bounded edges) {motive : Trail α β → Prop} (h : motive t)
    (step : ∀ (t rest : Trail α β) (x : α), t.pop? = some (x, rest) → goal x = false → motive t →
      motive (rest.pushMany x (edges x))) :
    motive (t.exploreUntil goal edges bounded) := by
  fun_induction exploreUntil goal edges bounded t with
  | case1 t hpop => exact h
  | case2 t x rest hpop hgoal => exact h
  | case3 t x rest hpop hgoal ih => exact ih (step t rest x hpop (Bool.eq_false_iff.mpr hgoal) h)

/-- One round takes the node out that waits longest and pushes all its edges. -/
def Round (edges : α → List (β × α)) (t r : Trail α β) : Prop :=
  ∃ x rest, t.pop? = some (x, rest) ∧ r = rest.pushMany x (edges x)

/-- An exploration goes on by rounds. -/
theorem rounds_exploreUntil {edges : α → List (β × α)} (goal : α → Bool) (bounded : Bounded edges)
    (t : Trail α β) :
    Relation.ReflTransGen (Round edges) t (t.exploreUntil goal edges bounded) := by
  refine exploreUntil_induction bounded .refl fun r rest x hpop _ hrounds ↦ ?_
  exact hrounds.tail ⟨x, rest, hpop, rfl⟩

/-- Exploration stays in a set of nodes that edges do not leave. -/
theorem forall_contains_exploreUntil {goal : α → Bool} {edges : α → List (β × α)}
    (bounded : Bounded edges) {inside : α → Prop} {root : α} (hroot : inside root)
    (hedges : ∀ x, inside x → ∀ e ∈ edges x, inside e.2) :
    ∀ x, ((start root).exploreUntil goal edges bounded).contains x = true → inside x := by
  refine exploreUntil_induction bounded
    (motive := fun t ↦ ∀ x, t.contains x = true → inside x) ?_ ?_
  · intro x hx
    rwa [contains_start_iff.mp hx]
  · intro t rest x hpop _ h y hy
    have hx : inside x := h x (contains_iff.mpr (mem_keys_of_peek? (peek?_of_pop? hpop)))
    rcases contains_pushMany.mp hy with hy | ⟨e, he, rfl⟩
    · rw [contains, reached_of_pop? hpop] at hy
      exact h y hy
    · exact hedges x hx e he

/-! ### Recorded edges -/

/-- Whether every recorded source is listed before the node that was reached from it. -/
def Grounded (t : Trail α β) : Prop :=
  ∀ (m : Nat) (x source : α) (label : β),
    t.reached.entries[m]? = some (x, some (label, source)) → source ∈ t.reached.keys.take m

omit [DecidableEq α] in
/-- What is recorded does not depend on how many nodes were taken out. -/
theorem Grounded.congr {r : Trail α β} (h : t.Grounded) (hr : r.reached = t.reached) :
    r.Grounded := by
  unfold Grounded
  rw [hr]
  exact h

/-- The start of an exploration has recorded no edge. -/
theorem grounded_start (root : α) : (start root : Trail α β).Grounded := by
  intro m x source label h
  have hmem : (x, some (label, source)) ∈ [(root, (none : Option (β × α)))] :=
    List.mem_of_getElem? h
  simp at hmem

/-- A new node is listed last, with the edge by which it was reached. -/
theorem entries_push {source target : α} {label : β} (h : t.contains target = false) :
    (t.push source label target).reached.entries =
      t.reached.entries ++ [(target, some (label, source))] := by
  have hkeys : target ∉ t.reached.keys := fun hmem ↦ by
    rw [contains_iff.mpr hmem] at h
    cases h
  rw [push, h]
  exact Table.entries_insert_of_notMem hkeys

namespace Grounded

/-- An edge may be recorded if its source is known. -/
theorem push (h : t.Grounded) {source target : α} {label : β} (hs : t.contains source = true) :
    (t.push source label target).Grounded := by
  cases htarget : t.contains target with
  | true => rwa [push_of_contains htarget]
  | false =>
    intro m x s l hentry
    rw [Table.keys, entries_push htarget, List.map_append]
    rw [entries_push htarget] at hentry
    rcases Nat.lt_or_ge m t.reached.entries.length with hm | hm
    · rw [List.getElem?_append_left hm] at hentry
      have hlength : m ≤ (t.reached.entries.map Prod.fst).length := by
        rw [List.length_map]
        exact Nat.le_of_lt hm
      rw [List.take_append_of_le_length hlength]
      exact h m x s l hentry
    · rw [List.getElem?_append_right hm, List.getElem?_singleton] at hentry
      split at hentry
      · cases hentry
        have hlength : (t.reached.entries.map Prod.fst).length ≤ m := by rwa [List.length_map]
        rw [List.take_append, List.take_of_length_le hlength]
        exact List.mem_append_left _ (contains_iff.mp hs)
      · cases hentry

/-- The edges of a known node may be recorded. -/
theorem pushMany (h : t.Grounded) {source : α} (edges : List (β × α))
    (hs : t.contains source = true) : (t.pushMany source edges).Grounded := by
  induction edges generalizing t with
  | nil => exact h
  | cons e edges ih => exact ih (h.push hs) (contains_push.mpr (.inl hs))

/-- A round records edges of a known node. -/
theorem round {edges : α → List (β × α)} {r : Trail α β} (h : t.Grounded) (hr : Round edges t r) :
    r.Grounded := by
  obtain ⟨x, rest, hpop, rfl⟩ := hr
  apply (h.congr (reached_of_pop? hpop)).pushMany
  rw [contains, reached_of_pop? hpop]
  exact contains_iff.mpr (mem_keys_of_peek? (peek?_of_pop? hpop))

/-- Rounds record edges of known nodes. -/
theorem rounds {edges : α → List (β × α)} {r : Trail α β} (h : t.Grounded)
    (hr : Relation.ReflTransGen (Round edges) t r) : r.Grounded := by
  induction hr with
  | refl => exact h
  | tail _ hround ih => exact ih.round hround

/-- Exploration records edges of known nodes. -/
theorem exploreUntil {goal : α → Bool} {edges : α → List (β × α)} (bounded : Bounded edges)
    (h : t.Grounded) : (t.exploreUntil goal edges bounded).Grounded :=
  h.rounds (rounds_exploreUntil goal bounded t)

/-- Following recorded edges leads to the root in as many steps as nodes are listed up to the
first one. -/
theorem exists_follow (h : t.Grounded) {bound : Nat} (hx : x ∈ t.reached.keys.take bound)
    (labels : List β) : ∃ path, t.follow bound x labels = .ok path := by
  induction bound generalizing x labels with
  | zero => simp at hx
  | succ bound ih =>
    obtain ⟨m, hm, hkey⟩ := List.mem_take_iff_getElem.mp hx
    rw [Table.keys, List.length_map] at hm
    have hentry : t.reached.entries[m]? = some (x, t.reached.entries[m].2) := by
      rw [List.getElem?_eq_getElem (by omega), ← hkey]
      simp [Table.keys]
    have hget := Table.get?_eq_some_iff.mpr (List.mem_of_getElem? hentry)
    rw [follow, hget]
    cases hedge : t.reached.entries[m].2 with
    | none => exact ⟨labels, rfl⟩
    | some edge =>
      obtain ⟨label, source⟩ := edge
      rw [hedge] at hentry
      have hsource := h m x source label hentry
      exact ih (List.take_subset_take_left _ (by omega) hsource) (label :: labels)

/-- There is a path to every known node. -/
theorem exists_path? (h : t.Grounded) (hx : t.contains x = true) :
    ∃ path, t.path? x = .ok (some path) := by
  have hlisted : x ∈ t.reached.keys.take t.reached.size := by
    have hlength : t.reached.keys.length ≤ t.reached.size := Nat.le_of_eq (List.length_map _)
    rw [List.take_of_length_le hlength]
    exact contains_iff.mp hx
  obtain ⟨path, hpath⟩ := h.exists_follow hlisted []
  exact ⟨path, by rw [path?, if_pos hx, hpath]; rfl⟩

end Grounded

end LanguageTheory.Trail
