import LanguageTheory.Collections.Table
import LanguageTheory.Collections.Universe

/-!
# Queues that remember how each node was reached

A `Trail` explores a labelled graph from a root. Every node that was reached keeps the edge over
which it was first reached, so a path of labels back to the root can be read off. When the nodes
are taken out in order and all their edges are pushed, these paths are shortest paths.

Spec guidance: `SPEC_FULL.md` §12.4.
-/

namespace LanguageTheory

universe u v

/-- Queue of the nodes of a labelled graph: each node after the root is listed with the label and
the source of the edge that reached it first, and `next` nodes have been taken out (§12.4). -/
structure Trail (α : Type u) (β : Type v) where
  reached : Table α (Option (β × α))
  next : Nat

namespace Trail

variable {α : Type u} {β : Type v} [DecidableEq α]

/-- The trail that has reached its root only. -/
def start (root : α) : Trail α β := ⟨(∅ : Table α _).insert root none, 0⟩

/-- Whether a node was reached. -/
def contains (t : Trail α β) (x : α) : Bool := t.reached.contains x

/-- Number of nodes that are waiting. -/
def size (t : Trail α β) : Nat := t.reached.size - t.next

/-- The node that waits longest. -/
def peek? (t : Trail α β) : Option α := t.reached.keys[t.next]?

/-- Records an edge from `source` to `target`, unless `target` was reached before. -/
def push (t : Trail α β) (source : α) (label : β) (target : α) : Trail α β :=
  if t.contains target then t
  else { t with reached := t.reached.insert target (some (label, source)) }

/-- Records several edges of one source. -/
def pushMany (t : Trail α β) (source : α) (edges : List (β × α)) : Trail α β :=
  edges.foldl (fun t e ↦ t.push source e.1 e.2) t

/-- Takes out the node that waits longest. -/
def pop? (t : Trail α β) : Option (α × Trail α β) :=
  match t.peek? with
  | none => none
  | some x => some (x, { t with next := t.next + 1 })

/-- Follows recorded edges back to the root, for at most `bound` edges, and prepends their labels
to `labels`. Fails with the node at which the edges lead nowhere. -/
def follow (t : Trail α β) : Nat → α → List β → Except α (List β)
  | 0, x, _ => .error x
  | bound + 1, x, labels =>
    match t.reached.get? x with
    | none => .error x
    | some none => .ok labels
    | some (some (label, source)) => t.follow bound source (label :: labels)

/-- The labels from the root to a node, or `none` for a node that was not reached. An edge recorded
for a source that was never reached breaks the path and is reported by that source. -/
def path? (t : Trail α β) (x : α) : Except α (Option (List β)) :=
  if t.contains x then (t.follow t.reached.size x []).map some else .ok none

/-- A node is known after a push exactly if it was known or is the target. -/
@[simp]
theorem contains_push {t : Trail α β} {source target x : α} {label : β} :
    (t.push source label target).contains x = true ↔ t.contains x = true ∨ x = target := by
  unfold push
  by_cases h : t.contains target = true
  · rw [if_pos h]
    exact ⟨Or.inl, fun hx ↦ hx.elim id fun e ↦ e ▸ h⟩
  · rw [if_neg h]
    simp [contains, Table.insert, Table.mem_keys_upsert]

/-- A target that was reached before is not recorded again. -/
theorem push_of_contains {t : Trail α β} {source target : α} {label : β}
    (h : t.contains target = true) : t.push source label target = t := by
  rw [push, if_pos h]

/-- The nodes known after several pushes. -/
@[simp]
theorem contains_pushMany {t : Trail α β} {source x : α} {edges : List (β × α)} :
    (t.pushMany source edges).contains x = true ↔
      t.contains x = true ∨ ∃ e ∈ edges, x = e.2 := by
  induction edges generalizing t with
  | nil => simp [pushMany]
  | cons e edges ih =>
    have h := ih (t := t.push source e.1 e.2)
    simp only [pushMany, List.foldl_cons] at h ⊢
    rw [h, contains_push, or_assoc]
    simp

/-- Targets that were all reached before are not recorded again. -/
theorem pushMany_of_contains {t : Trail α β} {source : α} {edges : List (β × α)}
    (h : ∀ e ∈ edges, t.contains e.2 = true) : t.pushMany source edges = t := by
  induction edges with
  | nil => rfl
  | cons e edges ih =>
    change (t.push source e.1 e.2).pushMany source edges = t
    rw [push_of_contains (h e (by simp))]
    exact ih fun e' he ↦ h e' (by simp [he])

omit [DecidableEq α] in
/-- Taking a node out keeps what is recorded. -/
theorem reached_of_pop? {t r : Trail α β} {x : α} (h : t.pop? = some (x, r)) :
    r.reached = t.reached := by
  unfold pop? at h
  split at h
  · cases h
  · cases h
    rfl

omit [DecidableEq α] in
/-- Taking a node out leaves one node less waiting. -/
theorem size_of_pop? {t r : Trail α β} {x : α} (h : t.pop? = some (x, r)) :
    r.size + 1 = t.size := by
  unfold pop? at h
  split at h
  · cases h
  · next y hy =>
    cases h
    obtain ⟨hlt, _⟩ := List.getElem?_eq_some_iff.1 hy
    simp only [Table.keys, List.length_map] at hlt
    simp only [size, Table.size]
    omega

/-- Walks along the edges of a labelled graph, with the labels that they meet. -/
inductive Walk (edges : α → List (β × α)) : α → List β → α → Prop where
  | refl (x : α) : Walk edges x [] x
  | step {x y z : α} {label : β} {labels : List β} :
      (label, y) ∈ edges x → Walk edges y labels z → Walk edges x (label :: labels) z

omit [DecidableEq α] in
/-- Two walks one after the other are a walk. -/
theorem Walk.append {edges : α → List (β × α)} {x y z : α} {us vs : List β}
    (hu : Walk edges x us y) (hv : Walk edges y vs z) : Walk edges x (us ++ vs) z := by
  induction hu with
  | refl _ => exact hv
  | step h _ ih => exact .step h (ih hv)

/-- The edges of a search are bounded when all their targets are in one finite universe. -/
def Bounded (edges : α → List (β × α)) : Prop :=
  ∃ carrier : List α, ∀ x, ∀ e ∈ edges x, e.2 ∈ carrier

/-- Takes nodes out and records their edges until the queue is empty or its next node is a goal. -/
def exploreUntil (goal : α → Bool) (edges : α → List (β × α)) (bounded : Bounded edges)
    (t : Trail α β) : Trail α β :=
  match _h : t.pop? with
  | none => t
  | some (x, rest) =>
    if goal x then t else exploreUntil goal edges bounded (rest.pushMany x (edges x))
termination_by (bounded.choose.countP fun x ↦ !t.contains x, t.size)
decreasing_by
  have hc : ∀ y, rest.contains y = t.contains y := fun y ↦ by
    rw [contains, contains, reached_of_pop? _h]
  by_cases hall : ∀ e ∈ edges x, rest.contains e.2 = true
  · rw [pushMany_of_contains hall]
    simp only [hc]
    have := size_of_pop? _h
    exact Prod.Lex.right _ (by omega)
  · refine Prod.Lex.left _ _ ?_
    obtain ⟨e, he, hn⟩ : ∃ e ∈ edges x, ¬ rest.contains e.2 = true :=
      Classical.byContradiction fun hne ↦ hall fun e he ↦
        Classical.byContradiction fun hn ↦ hne ⟨e, he, hn⟩
    refine Universe.countP_lt_countP ?_ (bounded.choose_spec x e he) ?_ ?_
    · intro z hz
      simp only [Bool.not_eq_true', ← Bool.not_eq_true, contains_pushMany, hc] at hz ⊢
      exact fun hm ↦ hz (Or.inl hm)
    · simp only [Bool.not_eq_false', contains_pushMany]
      exact Or.inr ⟨e, he, rfl⟩
    · rw [hc] at hn
      simpa using hn

/-- The labels on a shortest path to the first goal that a breadth-first search meets. -/
def pathToGoal? (goal : α → Bool) (edges : α → List (β × α)) (bounded : Bounded edges)
    (root : α) : Option (List β) :=
  let t := (start root).exploreUntil goal edges bounded
  match t.peek? with
  | none => none
  | some x => (t.path? x).toOption.join

end Trail

end LanguageTheory
