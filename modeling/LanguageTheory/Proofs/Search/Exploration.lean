import LanguageTheory.Proofs.Search.ShortestPaths

/-!
# Explored graphs

A graph is explored by rounds from a root on, until no node waits. If its edges have finitely many
targets, this ends. The recorded links lead to nodes that were listed before, so they form no cycle,
and the paths that are read off them at the end are shortest paths.
-/

namespace LanguageTheory.Trail

universe u v

variable {α : Type u} {β : Type v} [DecidableEq α] {edges : α → List (β × α)} {t r : Trail α β}
  {x y root : α}

/-! ### Links -/

/-- The edge by which `x` was reached first comes from `y`. -/
def Link (t : Trail α β) (x y : α) : Prop :=
  ∃ label, t.reached.get? x = some (some (label, y))

/-- A link leads to a node that is listed before. -/
theorem Grounded.idxOf_lt (h : t.Grounded) (hxy : t.Link x y) :
    t.reached.keys.idxOf y < t.reached.keys.idxOf x := by
  obtain ⟨label, hget⟩ := hxy
  obtain ⟨m, hentry⟩ := List.getElem?_of_mem (Table.get?_eq_some_iff.mp hget)
  have hkey : t.reached.keys[m]? = some x := by
    rw [Table.keys, List.getElem?_map, hentry]
    rfl
  obtain ⟨hm, rfl⟩ := List.getElem?_eq_some_iff.mp hkey
  have hsource : y ∈ t.reached.keys.take m := h m _ y label hentry
  have hplace : t.reached.keys.idxOf t.reached.keys[m] = m :=
    List.Nodup.idxOf_getElem t.reached.nodup_keys m hm
  rw [hplace]
  exact (List.mem_take_iff_idxOf_lt (List.mem_of_mem_take hsource)).mp hsource

/-- Links form no cycle. -/
theorem Grounded.not_transGen_link (h : t.Grounded) (x : α) :
    ¬ Relation.TransGen t.Link x x := by
  have hplaces : ∀ y, Relation.TransGen t.Link x y →
      t.reached.keys.idxOf y < t.reached.keys.idxOf x := by
    intro y hxy
    induction hxy with
    | single hxy => exact h.idxOf_lt hxy
    | tail _ hyz ih => exact Nat.lt_trans (h.idxOf_lt hyz) ih
  intro hcycle
  exact Nat.lt_irrefl _ (hplaces x hcycle)

/-- Following links comes to an answer for every node. -/
theorem Grounded.exists_path?_eq_ok (h : t.Grounded) (x : α) : ∃ path, t.path? x = .ok path := by
  cases hx : t.contains x with
  | true =>
    obtain ⟨path, hpath⟩ := h.exists_path? hx
    exact ⟨some path, hpath⟩
  | false => exact ⟨none, by rw [path?, hx]; rfl⟩

/-! ### Rounds -/

/-- What rounds from the root on come to when no node waits any more. -/
structure Explored (edges : α → List (β × α)) (root : α) (t : Trail α β) : Prop where
  rounds : Relation.ReflTransGen (Round edges) (start root) t
  done : t.pop? = none

/-- A round comes to one trail. -/
theorem rightUnique_round : Relator.RightUnique (Round (β := β) edges) := by
  rintro t r r' ⟨x, rest, hpop, rfl⟩ ⟨x', rest', hpop', rfl⟩
  cases hpop.symm.trans hpop'
  rfl

/-- When no node waits, there is no further round. -/
theorem eq_of_rounds_of_done (h : Relation.ReflTransGen (Round edges) t r) (ht : t.pop? = none) :
    r = t := by
  rcases h.cases_head with heq | ⟨_, ⟨x, rest, hpop, _⟩, _⟩
  · exact heq.symm
  · rw [ht] at hpop
    cases hpop

/-- An exploration comes to one trail. -/
theorem Explored.unique (ht : Explored edges root t) (hr : Explored edges root r) : t = r := by
  have hrounds :=
    Relation.ReflTransGen.total_of_right_unique rightUnique_round ht.rounds hr.rounds
  rcases hrounds with h | h
  · exact (eq_of_rounds_of_done h ht.done).symm
  · exact eq_of_rounds_of_done h hr.done

/-- A search without a goal goes on until no node waits. -/
theorem pop?_exploreUntil_eq_none (bounded : Bounded edges) (t : Trail α β) :
    (t.exploreUntil (fun _ ↦ false) edges bounded).pop? = none := by
  fun_induction exploreUntil (fun _ ↦ false) edges bounded t with
  | case1 t hpop => exact hpop
  | case2 t x rest hpop hgoal => cases hgoal
  | case3 t x rest hpop hgoal ih => exact ih

/-- A search without a goal explores the graph. -/
theorem explored_exploreUntil (bounded : Bounded edges) (root : α) :
    Explored edges root ((start root).exploreUntil (fun _ ↦ false) edges bounded) :=
  ⟨rounds_exploreUntil _ bounded (start root), pop?_exploreUntil_eq_none bounded (start root)⟩

/-! ### Shortest paths -/

/-- The labels of a walk from `root` to `x` that has as few edges as any. -/
structure IsShortest (edges : α → List (β × α)) (root : α) (w : List β) (x : α) : Prop where
  walk : Walk edges root w x
  length_le : ∀ v, Walk edges root v x → w.length ≤ v.length

/-- When a graph was explored, nodes to which no walk leads have no path, and the others have a
shortest one. -/
theorem Explored.path?_cases (h : Explored edges root t) (x : α) :
    (t.path? x = .ok none ∧ ∀ w, ¬ Walk edges root w x) ∨
      ∃ w, t.path? x = .ok (some w) ∧ IsShortest edges root w x := by
  obtain ⟨word, hword⟩ := exists_ranked_of_rounds (Ranking.length edges) h.rounds
  have hpeek : t.peek? = none := by
    cases hpeek : t.peek? with
    | none => rfl
    | some y =>
      have hpop := h.done
      rw [pop?, hpeek] at hpop
      cases hpop
  -- No node waits, so every walk leads to a known node whose word is no longer.
  have hknown : ∀ w, Walk edges root w x →
      x ∈ t.reached.keys ∧ (word x).length ≤ w.length := by
    intro w hw
    rcases hword.known_or_waiting (Ranking.length edges) hw with ⟨hx, hle⟩ | ⟨y, hy, _⟩
    · refine ⟨hx, ?_⟩
      cases hle with
      | refl => exact Nat.le_refl _
      | single hle => exact hle
    · rw [hpeek] at hy
      cases hy
  by_cases hx : x ∈ t.reached.keys
  · right
    refine ⟨word x, hword.path?_eq ((grounded_start root).rounds h.rounds) hx, ?_⟩
    exact ⟨hword.walk x hx, fun v hv ↦ (hknown v hv).2⟩
  · left
    have hcontains : t.contains x = false := by
      rw [← Bool.not_eq_true, contains_iff]
      exact hx
    refine ⟨?_, fun w hw ↦ hx (hknown w hw).1⟩
    rw [path?, hcontains]
    rfl

/-- Exploring a graph ends, with one trail. No path is read off it for exactly the nodes to which no
walk leads from the root, and for the others it is a shortest one. After any number of rounds the
links form no cycle, and following them comes to an answer. -/
theorem exists_explored_and_path?_isShortest (bounded : Bounded edges) (root : α) :
    (∃ t, ∀ r, Explored edges root r ↔ r = t) ∧
    (∀ t, Explored edges root t → ∀ x,
      (t.path? x = .ok none ↔ ∀ w, ¬ Walk edges root w x) ∧
      ((∃ w, Walk edges root w x) →
        ∃ w, t.path? x = .ok (some w) ∧ IsShortest edges root w x)) ∧
    ∀ t, Relation.ReflTransGen (Round edges) (start root) t →
      (∀ x, ¬ Relation.TransGen t.Link x x) ∧ ∀ x, ∃ path, t.path? x = .ok path := by
  refine ⟨?_, ?_, ?_⟩
  · refine ⟨(start root).exploreUntil (fun _ ↦ false) edges bounded, fun r ↦ ⟨fun hr ↦ ?_, ?_⟩⟩
    · exact hr.unique (explored_exploreUntil bounded root)
    · rintro rfl
      exact explored_exploreUntil bounded root
  · intro t ht x
    rcases ht.path?_cases x with ⟨hnone, hnot⟩ | ⟨w, hsome, hshortest⟩
    · exact ⟨iff_of_true hnone hnot, fun ⟨w, hw⟩ ↦ absurd hw (hnot w)⟩
    · refine ⟨iff_of_false ?_ fun hnot ↦ hnot w hshortest.walk, fun _ ↦ ⟨w, hsome, hshortest⟩⟩
      rw [hsome]
      nofun
  · intro t ht
    have hgrounded := (grounded_start root).rounds ht
    exact ⟨hgrounded.not_transGen_link, hgrounded.exists_path?_eq_ok⟩

/-- The edges of a node in a list of edges with their sources. -/
def listedEdges (graph : List (α × β × α)) (x : α) : List (β × α) :=
  (graph.filter fun e ↦ e.1 = x).map Prod.snd

/-- Listed edges have finitely many targets. -/
theorem bounded_listedEdges (graph : List (α × β × α)) : Bounded (listedEdges graph) := by
  refine ⟨graph.map fun e ↦ e.2.2, fun x e he ↦ ?_⟩
  obtain ⟨f, hf, rfl⟩ := List.mem_map.mp he
  exact List.mem_map_of_mem (List.mem_filter.mp hf).1

/-- A graph with an edge from 0 to itself, two edges from 0 to 1, two ways from 0 to 3, an edge back
from 3 to 0, and a node 5 to which no edge leads. -/
def looped : List (Nat × Char × Nat) :=
  [(0, 'a', 0), (0, 'b', 1), (0, 'c', 2), (0, 'd', 1), (1, 'a', 3), (2, 'b', 3), (3, 'd', 4),
    (3, 'a', 0), (5, 'a', 4)]

/-- What an exploration from 0 records. -/
def loopedTrail : Trail Nat Char where
  reached :=
    { entries := [(0, none), (1, some ('b', 0)), (2, some ('c', 0)), (3, some ('a', 1)),
        (4, some ('d', 3))]
      nodup_keys := by decide }
  next := 5

/-- Five rounds explore the graph. -/
theorem explored_loopedTrail : Explored (listedEdges looped) 0 loopedTrail := by
  have hround : ∀ {t rest : Trail Nat Char} (x : Nat), t.pop? = some (x, rest) →
      Round (listedEdges looped) t (rest.pushMany x (listedEdges looped x)) :=
    fun x hpop ↦ ⟨x, _, hpop, rfl⟩
  constructor
  · have hzero := Relation.ReflTransGen.single (hround (t := start 0) 0 rfl)
    have hone := hzero.tail (hround 1 rfl)
    have htwo := hone.tail (hround 2 rfl)
    have hthree := htwo.tail (hround 3 rfl)
    exact hthree.tail (hround 4 rfl)
  · rfl

/-- The shortest way from 0 to 4 has three edges, and no way leads from 0 to 5. -/
theorem path?_isShortest_looped :
    Bounded (listedEdges looped) ∧ loopedTrail.path? 4 = .ok (some ['b', 'a', 'd']) ∧
    IsShortest (listedEdges looped) 0 ['b', 'a', 'd'] 4 ∧
    (∀ w, ¬ Walk (listedEdges looped) 0 w 5) ∧
    ∀ x, ¬ Relation.TransGen loopedTrail.Link x x := by
  have hbounded := bounded_listedEdges looped
  obtain ⟨_, hpaths, hlinks⟩ := exists_explored_and_path?_isShortest hbounded 0
  have hfour : loopedTrail.path? 4 = .ok (some ['b', 'a', 'd']) := rfl
  have hwalk : Walk (listedEdges looped) 0 ['b', 'a', 'd'] 4 :=
    .step (y := 1) (by decide) (.step (y := 3) (by decide) (.step (y := 4) (by decide) (.refl 4)))
  obtain ⟨w, hw, hshortest⟩ := (hpaths loopedTrail explored_loopedTrail 4).2 ⟨_, hwalk⟩
  cases hfour.symm.trans hw
  have hfive := (hpaths loopedTrail explored_loopedTrail 5).1.mp rfl
  exact ⟨hbounded, hfour, hshortest, hfive, (hlinks loopedTrail explored_loopedTrail.rounds).1⟩

end LanguageTheory.Trail
