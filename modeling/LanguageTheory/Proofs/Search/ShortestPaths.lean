import LanguageTheory.Proofs.Search.Trails
import LanguageTheory.Proofs.Search.WordOrders
import Mathlib.Logic.Function.Basic

/-!
# First paths

A breadth-first search records a word for every node that it reaches: the labels of the recorded
edges. Nodes are listed in the order of their words, for every order of words that the search
follows, and the word of a node is the first one that leads to it. Where shorter words come first,
recorded paths are shortest paths.
-/

namespace LanguageTheory.Trail

universe u v

variable {α : Type u} {β : Type v} {edges : α → List (β × α)} {x y z root : α} {b : β}
  {w : List β}

/-! ### Walks -/

/-- A walk goes on over an edge from its end. -/
theorem Walk.concat (h : Walk edges x w y) (he : (b, z) ∈ edges y) :
    Walk edges x (w ++ [b]) z := h.append (.step he (.refl z))

/-- A walk with a last label takes its last edge from the end of a walk. -/
theorem Walk.exists_of_concat (h : Walk edges x (w ++ [b]) z) :
    ∃ y, Walk edges x w y ∧ (b, z) ∈ edges y := by
  induction w generalizing x with
  | nil =>
    cases h with
    | step he hz =>
      cases hz
      exact ⟨x, .refl x, he⟩
  | cons a w ih =>
    cases h with
    | step he hz =>
      obtain ⟨y, hy, hb⟩ := ih hz
      exact ⟨y, .step he hy, hb⟩

/-! ### Nodes that were taken out -/

section Taken

variable {t rest : Trail α β}

/-- The nodes that were taken out, in order. -/
def taken (t : Trail α β) : List α := t.reached.keys.take t.next

/-- Taking a node out changes nothing but the number of nodes that were taken out. -/
theorem pop?_eq_some_iff :
    t.pop? = some (x, rest) ↔ t.peek? = some x ∧ rest = { t with next := t.next + 1 } := by
  unfold pop?
  split
  · next h => simp [h]
  · next y h =>
    rw [h, Option.some.injEq, Prod.mk.injEq, Option.some.injEq]
    exact and_congr_right fun _ ↦ eq_comm

/-- A node that waits longest comes right after those that were taken out. -/
theorem take_succ_keys (h : t.peek? = some x) :
    t.reached.keys.take (t.next + 1) = t.taken ++ [x] := by
  rw [List.take_add_one, show t.reached.keys[t.next]? = some x from h]
  rfl

/-- A node that waits longest is the first one that was not taken out. -/
theorem drop_next_keys (h : t.peek? = some x) :
    t.reached.keys.drop t.next = x :: t.reached.keys.drop (t.next + 1) := by
  obtain ⟨hlt, rfl⟩ := List.getElem?_eq_some_iff.mp h
  exact List.drop_eq_getElem_cons hlt

/-- A node that was reached and not taken out waits behind the one that waits longest. -/
theorem exists_peek?_of_notMem_taken (hx : x ∈ t.reached.keys) (hn : x ∉ t.taken) :
    ∃ y, t.peek? = some y ∧ (x = y ∨ x ∈ t.reached.keys.drop (t.next + 1)) := by
  rw [← List.take_append_drop t.next t.reached.keys, List.mem_append] at hx
  have hx := hx.resolve_left hn
  have hlt : t.next < t.reached.keys.length := by
    have := List.length_pos_of_mem hx
    rw [List.length_drop] at this
    omega
  have hpeek : t.peek? = some t.reached.keys[t.next] := List.getElem?_eq_getElem hlt
  rw [drop_next_keys hpeek] at hx
  exact ⟨_, hpeek, List.mem_cons.mp hx⟩

end Taken

/-! ### What a search records -/

variable [DecidableEq α] {before : List β → List β → Prop} {word : α → List β}
  {scanned : List (α × β × α)} {t rest : Trail α β}

/-- What holds of a trail when the edges of `scanned` were pushed. A listed node has a word, which
continues the word of its recorded source and with which a walk leads to the node. The words are in
the order of the nodes, and a pushed edge gives its target no word that comes before its own. -/
structure Ranked (before : List β → List β → Prop) (edges : α → List (β × α)) (root : α)
    (word : α → List β) (scanned : List (α × β × α)) (t : Trail α β) : Prop where
  next_le : t.next ≤ t.reached.keys.length
  root_eq : t.reached.get? root = some none
  recorded : ∀ {x edge}, t.reached.get? x = some edge → edge = none ∧ word x = [] ∨
    ∃ e ∈ scanned, edge = some (e.2.1, e.1) ∧ word x = word e.1 ++ [e.2.1]
  walk : ∀ x ∈ t.reached.keys, Walk edges root (word x) x
  ordered : t.reached.keys.Pairwise fun x y ↦ before (word x) (word y)
  taken_of_mem : ∀ e ∈ scanned, e.1 ∈ t.taken
  settled : ∀ e ∈ scanned, e.2.2 ∈ t.reached.keys ∧
    Relation.ReflGen before (word e.2.2) (word e.1 ++ [e.2.1])

/-- The edges of the nodes that were taken out. -/
def scans (edges : α → List (β × α)) (t : Trail α β) : List (α × β × α) :=
  t.taken.flatMap fun x ↦ (edges x).map fun e ↦ (x, e)

/-- A push lists a new node last. -/
theorem keys_push_of_notMem (source : α) (label : β) (h : x ∉ t.reached.keys) :
    (t.push source label x).reached.keys = t.reached.keys ++ [x] := by
  have hx : t.contains x = false := by
    rw [← Bool.not_eq_true, contains_iff]
    exact h
  rw [Table.keys, entries_push hx, List.map_append]
  rfl

/-- What is recorded after the push of a new node. -/
theorem get?_push_of_notMem (source : α) (label : β) (h : x ∉ t.reached.keys) (y : α) :
    (t.push source label x).reached.get? y =
      if y = x then some (some (label, source)) else t.reached.get? y := by
  have hx : ¬ t.contains x = true := by rwa [contains_iff]
  rw [push, if_neg hx]
  exact Table.get?_insert t.reached x _ y

/-- A push takes no node out. -/
@[simp]
theorem next_push (t : Trail α β) (source : α) (label : β) (target : α) :
    (t.push source label target).next = t.next := by
  unfold push
  split <;> rfl

/-- A push lists what was listed. -/
theorem prefix_keys_push (t : Trail α β) (source : α) (label : β) (target : α) :
    t.reached.keys <+: (t.push source label target).reached.keys := by
  by_cases h : target ∈ t.reached.keys
  · simp [push_of_contains (contains_iff.mpr h)]
  · rw [keys_push_of_notMem source label h]
    exact List.prefix_append _ _

/-- No more nodes are taken out than are listed after a push. -/
theorem next_le_push {source target : α} {label : β} (h : t.next ≤ t.reached.keys.length) :
    (t.push source label target).next ≤ (t.push source label target).reached.keys.length := by
  rw [next_push]
  exact Nat.le_trans h (prefix_keys_push t source label target).length_le

/-- A push changes nothing about the nodes that were taken out. -/
theorem taken_push {source target : α} {label : β} (h : t.next ≤ t.reached.keys.length) :
    (t.push source label target).taken = t.taken := by
  obtain ⟨new, hnew⟩ := prefix_keys_push t source label target
  rw [taken, next_push, ← hnew, List.take_append_of_le_length h]
  rfl

/-- Pushing several edges changes nothing about the nodes that were taken out. -/
theorem taken_pushMany {source : α} {es : List (β × α)} (h : t.next ≤ t.reached.keys.length) :
    (t.pushMany source es).taken = t.taken := by
  induction es generalizing t with
  | nil => rfl
  | cons e es ih => exact (ih (next_le_push h)).trans (taken_push h)

/-- The edges of a node that is taken out are pushed after it. -/
theorem taken_pushMany_of_pop? (h : t.pop? = some (x, rest)) (es : List (β × α)) :
    (rest.pushMany x es).taken = t.taken ++ [x] := by
  obtain ⟨hpeek, hrest⟩ := pop?_eq_some_iff.mp h
  obtain ⟨hlt, _⟩ := List.getElem?_eq_some_iff.mp hpeek
  have hnext : rest.next ≤ rest.reached.keys.length := by
    rw [hrest]
    exact hlt
  rw [taken_pushMany hnext, hrest]
  exact take_succ_keys hpeek

/-- The start of a search has reached its root. -/
theorem ranked_start (before : List β → List β → Prop) (edges : α → List (β × α)) (root : α) :
    Ranked before edges root (fun _ ↦ []) [] (start root) := by
  have hkeys : (start root : Trail α β).reached.keys = [root] := rfl
  have hget : ∀ x, (start root : Trail α β).reached.get? x = if x = root then some none else none :=
    fun x ↦ Table.get?_insert ∅ root none x
  constructor
  · exact Nat.zero_le _
  · rw [hget, if_pos rfl]
  · intro x edge h
    rw [hget] at h
    split at h
    · cases h
      exact .inl ⟨rfl, rfl⟩
    · cases h
  · intro x hx
    rw [hkeys, List.mem_singleton] at hx
    rw [hx]
    exact .refl root
  · rw [hkeys]
    exact List.pairwise_singleton _ _
  · intro e he
    cases he
  · intro e he
    cases he

namespace Ranked

/-- The word of the root is empty. -/
theorem word_root (h : Ranked before edges root word scanned t) : word root = [] := by
  rcases h.recorded h.root_eq with ⟨_, hw⟩ | ⟨e, _, he, _⟩
  · exact hw
  · cases he

/-- The root is listed. -/
theorem root_mem (h : Ranked before edges root word scanned t) : root ∈ t.reached.keys :=
  Table.mem_keys_iff.mpr ⟨none, h.root_eq⟩

/-- An edge to a listed node may be scanned if it gives a later word. -/
theorem push_of_mem (h : Ranked before edges root word scanned t) (hx : x ∈ t.taken) {e : β × α}
    (hy : e.2 ∈ t.reached.keys) (hlast : before (word e.2) (word x ++ [e.1])) :
    Ranked before edges root word (scanned ++ [(x, e)]) (t.push x e.1 e.2) := by
  rw [push_of_contains (contains_iff.mpr hy)]
  refine { h with
    recorded := fun hedge ↦ ?_
    taken_of_mem := fun f hf ↦ ?_
    settled := fun f hf ↦ ?_ }
  · rcases h.recorded hedge with hroot | ⟨f, hf, hw⟩
    · exact .inl hroot
    · exact .inr ⟨f, List.mem_append_left _ hf, hw⟩
  · rcases List.mem_append.mp hf with hf | hf
    · exact h.taken_of_mem f hf
    · rw [List.mem_singleton.mp hf]
      exact hx
  · rcases List.mem_append.mp hf with hf | hf
    · exact h.settled f hf
    · rw [List.mem_singleton.mp hf]
      exact ⟨hy, .single hlast⟩

/-- An edge to a new node lists it with the word that the edge gives, if this word is the last. -/
theorem push_of_notMem (h : Ranked before edges root word scanned t) (hx : x ∈ t.taken)
    {e : β × α} (he : e ∈ edges x) (hy : e.2 ∉ t.reached.keys)
    (hlast : ∀ z ∈ t.reached.keys, before (word z) (word x ++ [e.1])) {word' : α → List β}
    (hold : ∀ z ∈ t.reached.keys, word' z = word z) (hnew : word' e.2 = word x ++ [e.1]) :
    Ranked before edges root word' (scanned ++ [(x, e)]) (t.push x e.1 e.2) := by
  have hkeys := keys_push_of_notMem x e.1 hy
  have hget := get?_push_of_notMem x e.1 hy
  have hxkey : x ∈ t.reached.keys := List.mem_of_mem_take hx
  have hsource : ∀ f ∈ scanned, word' f.1 = word f.1 := fun f hf ↦
    hold _ (List.mem_of_mem_take (h.taken_of_mem f hf))
  constructor
  · exact next_le_push h.next_le
  · have hne : root ≠ e.2 := fun heq ↦ hy (heq ▸ h.root_mem)
    rw [hget, if_neg hne]
    exact h.root_eq
  · intro z edge hz
    rw [hget] at hz
    split at hz
    · next heq =>
      cases hz
      refine .inr ⟨(x, e), List.mem_append_right _ (List.mem_singleton_self _), rfl, ?_⟩
      rw [heq, hnew, hold x hxkey]
    · have hzkey := Table.mem_keys_iff.mpr ⟨edge, hz⟩
      rw [hold z hzkey]
      rcases h.recorded hz with hroot | ⟨f, hf, hedge, hw⟩
      · exact .inl hroot
      · rw [← hsource f hf] at hw
        exact .inr ⟨f, List.mem_append_left _ hf, hedge, hw⟩
  · intro z hz
    rw [hkeys] at hz
    rcases List.mem_append.mp hz with hz | hz
    · rw [hold z hz]
      exact h.walk z hz
    · rw [List.mem_singleton.mp hz, hnew]
      exact (h.walk x hxkey).concat he
  · rw [hkeys, List.pairwise_append]
    refine ⟨?_, List.pairwise_singleton _ _, ?_⟩
    · refine h.ordered.imp_of_mem fun {a c} ha hc hac ↦ ?_
      rwa [hold a ha, hold c hc]
    · intro z hz c hc
      rw [List.mem_singleton.mp hc, hold z hz, hnew]
      exact hlast z hz
  · intro f hf
    rw [taken_push h.next_le]
    rcases List.mem_append.mp hf with hf | hf
    · exact h.taken_of_mem f hf
    · rw [List.mem_singleton.mp hf]
      exact hx
  · intro f hf
    rw [hkeys]
    rcases List.mem_append.mp hf with hf | hf
    · obtain ⟨hkey, hle⟩ := h.settled f hf
      rw [hold _ hkey, hsource f hf]
      exact ⟨List.mem_append_left _ hkey, hle⟩
    · rw [List.mem_singleton.mp hf, hnew, hold x hxkey]
      exact ⟨List.mem_append_right _ (List.mem_singleton_self _), .refl⟩

/-- The edges of a node that was taken out may be scanned in order if they give later words than all
that are listed. -/
theorem pushMany (R : Ranking before edges) (h : Ranked before edges root word scanned t)
    (hx : x ∈ t.taken) {es : List (β × α)} (hes : es.Sublist (edges x))
    (hlast : ∀ z ∈ t.reached.keys, ∀ e ∈ es, before (word z) (word x ++ [e.1])) :
    ∃ word', Ranked before edges root word' (scanned ++ es.map fun e ↦ (x, e))
      (t.pushMany x es) := by
  induction es generalizing word scanned t with
  | nil => exact ⟨word, by rwa [List.map_nil, List.append_nil]⟩
  | cons e es ih =>
    have he : e ∈ edges x := hes.subset List.mem_cons_self
    have hes' : es.Sublist (edges x) := (List.sublist_cons_self e es).trans hes
    have hlater : ∀ f ∈ es, before (word x ++ [e.1]) (word x ++ [f.1]) :=
      fun f hf ↦ List.rel_of_pairwise_cons ((R.pairwise (word x) x).sublist hes) hf
    rw [List.map_cons, List.append_cons]
    change ∃ word', Ranked before edges root word' _ ((t.push x e.1 e.2).pushMany x es)
    by_cases hy : e.2 ∈ t.reached.keys
    · have hnext := h.push_of_mem hx hy (hlast _ hy e List.mem_cons_self)
      rw [push_of_contains (contains_iff.mpr hy)] at hnext ⊢
      exact ih hnext hx hes' fun z hz f hf ↦ hlast z hz f (List.mem_cons_of_mem e hf)
    · -- The new word comes after all that are listed and before those of the edges to come.
      have hxkey : x ∈ t.reached.keys := List.mem_of_mem_take hx
      have hold : ∀ z ∈ t.reached.keys, Function.update word e.2 (word x ++ [e.1]) z = word z :=
        fun z hz ↦ Function.update_of_ne (ne_of_mem_of_not_mem hz hy) _ _
      have hnew : Function.update word e.2 (word x ++ [e.1]) e.2 = word x ++ [e.1] :=
        Function.update_self _ _ _
      have hnext := h.push_of_notMem hx he hy (fun z hz ↦ hlast z hz e List.mem_cons_self) hold hnew
      refine ih hnext (by rwa [taken_push h.next_le]) hes' fun z hz f hf ↦ ?_
      rw [hold x hxkey]
      rw [keys_push_of_notMem x e.1 hy] at hz
      rcases List.mem_append.mp hz with hz | hz
      · rw [hold z hz]
        exact hlast z hz f (List.mem_cons_of_mem e hf)
      · rw [List.mem_singleton.mp hz, hnew]
        exact hlater f hf

/-- The node that waits longest may be taken out. -/
theorem take (h : Ranked before edges root word scanned t) (hx : t.peek? = some x) :
    Ranked before edges root word scanned { t with next := t.next + 1 } := by
  obtain ⟨hlt, _⟩ := List.getElem?_eq_some_iff.mp hx
  refine { h with next_le := hlt, taken_of_mem := fun e he ↦ ?_ }
  rw [taken, take_succ_keys hx]
  exact List.mem_append_left _ (h.taken_of_mem e he)

/-- The edges of the node that waits longest give later words than all that are listed. -/
theorem before_concat_of_peek? (R : Ranking before edges)
    (h : Ranked before edges root word scanned t) (hx : t.peek? = some x)
    (hz : z ∈ t.reached.keys) (b : β) : before (word z) (word x ++ [b]) := by
  -- The word of `z` continues that of a node which was taken out, hence is listed before `x`.
  obtain ⟨edge, hedge⟩ := Table.mem_keys_iff.mp hz
  rcases h.recorded hedge with ⟨_, hword⟩ | ⟨e, he, _, hword⟩
  · rw [hword]
    exact R.nil_before (word x) b
  · have hsource : before (word e.1) (word x) := by
      refine h.ordered.rel_of_mem_take_of_mem_drop (h.taken_of_mem e he) ?_
      rw [drop_next_keys hx]
      exact List.mem_cons_self
    rw [hword]
    exact R.concat hsource e.2.1 b

/-- A node is taken out and its edges are pushed. -/
theorem round (R : Ranking before edges) (h : Ranked before edges root word (scans edges t) t)
    {r : Trail α β} (hr : Round edges t r) :
    ∃ word', Ranked before edges root word' (scans edges r) r := by
  obtain ⟨x, rest, hpop, rfl⟩ := hr
  obtain ⟨hpeek, rfl⟩ := pop?_eq_some_iff.mp hpop
  have hnext := h.take hpeek
  have hscans : scans edges (Trail.pushMany { t with next := t.next + 1 } x (edges x)) =
      scans edges t ++ (edges x).map fun e ↦ (x, e) := by
    rw [scans, taken_pushMany_of_pop? hpop, List.flatMap_append, List.flatMap_singleton]
    rfl
  rw [hscans]
  refine hnext.pushMany R ?_ (List.Sublist.refl _) fun z hz e _ ↦
    h.before_concat_of_peek? R hpeek hz e.1
  rw [taken, take_succ_keys hpeek]
  exact List.mem_append_right _ (List.mem_singleton_self x)

/-- A node that was not taken out has no earlier word than the one that waits longest. -/
theorem exists_peek? (h : Ranked before edges root word scanned t) (hx : x ∈ t.reached.keys)
    (hn : x ∉ t.taken) : ∃ y, t.peek? = some y ∧ Relation.ReflGen before (word y) (word x) := by
  obtain ⟨y, hy, rfl | hwaits⟩ := exists_peek?_of_notMem_taken hx hn
  · exact ⟨x, hy, .refl⟩
  · refine ⟨y, hy, .single ?_⟩
    refine h.ordered.rel_of_mem_take_of_mem_drop (i := t.next + 1) ?_ hwaits
    rw [take_succ_keys hy]
    exact List.mem_append_right _ (List.mem_singleton_self y)

/-- A walk leads to a listed node whose word is no later, or the node that waits longest has a word
that is no later. -/
theorem known_or_waiting (R : Ranking before edges)
    (h : Ranked before edges root word (scans edges t) t) (hw : Walk edges root w x) :
    (x ∈ t.reached.keys ∧ Relation.ReflGen before (word x) w) ∨
      ∃ y, t.peek? = some y ∧ Relation.ReflGen before (word y) w := by
  induction w using List.reverseRecOn generalizing x with
  | nil =>
    cases hw
    refine .inl ⟨h.root_mem, ?_⟩
    rw [h.word_root]
  | append_singleton w b ih =>
    obtain ⟨y, hy, hb⟩ := hw.exists_of_concat
    have hlater : Relation.ReflGen before w (w ++ [b]) := .single (R.before_concat w b)
    rcases ih hy with ⟨hkey, hle⟩ | ⟨z, hz, hle⟩
    -- If the last edge was pushed, its target is settled; otherwise its source still waits.
    · by_cases htaken : y ∈ t.taken
      · have hscan : (y, b, x) ∈ scans edges t :=
          List.mem_flatMap.mpr ⟨y, htaken, List.mem_map_of_mem hb⟩
        obtain ⟨hxkey, hx⟩ := h.settled _ hscan
        exact .inl ⟨hxkey, R.reflGen_trans hx (R.reflGen_concat hle b)⟩
      · obtain ⟨z, hz, hzy⟩ := h.exists_peek? hkey htaken
        exact .inr ⟨z, hz, R.reflGen_trans (R.reflGen_trans hzy hle) hlater⟩
    · exact .inr ⟨z, hz, R.reflGen_trans hle hlater⟩

/-- The recorded edges spell the word of a node. -/
theorem eq_of_follow (h : Ranked before edges root word scanned t) {bound : Nat}
    {labels path : List β} (hpath : t.follow bound x labels = .ok path) :
    path = word x ++ labels := by
  induction bound generalizing x labels with
  | zero => cases hpath
  | succ bound ih =>
    rw [follow] at hpath
    split at hpath
    · cases hpath
    · next hroot =>
      cases hpath
      rcases h.recorded hroot with ⟨_, hword⟩ | ⟨_, _, hedge, _⟩
      · rw [hword, List.nil_append]
      · cases hedge
    · next label source hrec =>
      rcases h.recorded hrec with ⟨hedge, _⟩ | ⟨e, _, hedge, hword⟩
      · cases hedge
      · cases hedge
        rw [ih hpath, hword, List.append_assoc, List.singleton_append]

/-- The recorded path to a listed node is its word. -/
theorem path?_eq (h : Ranked before edges root word scanned t) (ht : t.Grounded)
    (hx : x ∈ t.reached.keys) : t.path? x = .ok (some (word x)) := by
  obtain ⟨path, hpath⟩ := ht.exists_path? (contains_iff.mpr hx)
  rw [hpath]
  rw [path?, if_pos (contains_iff.mpr hx)] at hpath
  cases hfollow : t.follow t.reached.size x [] with
  | error y =>
    rw [hfollow] at hpath
    cases hpath
  | ok labels =>
    rw [hfollow] at hpath
    cases hpath
    rw [h.eq_of_follow hfollow, List.append_nil]

end Ranked

/-! ### Searches -/

/-- Rounds from the root on record first words. -/
theorem exists_ranked_of_rounds (R : Ranking before edges)
    (h : Relation.ReflTransGen (Round edges) (start root) t) :
    ∃ word, Ranked before edges root word (scans edges t) t := by
  induction h with
  | refl => exact ⟨_, ranked_start before edges root⟩
  | tail _ hround ih =>
    obtain ⟨word, hword⟩ := ih
    exact hword.round R hround

section Search

variable {goal : α → Bool} (bounded : Bounded edges)

/-- A search records first words. -/
theorem exists_ranked_exploreUntil (R : Ranking before edges) (goal : α → Bool) (root : α) :
    ∃ word, Ranked before edges root word
      (scans edges ((start root).exploreUntil goal edges bounded))
      ((start root).exploreUntil goal edges bounded) :=
  exists_ranked_of_rounds R (rounds_exploreUntil goal bounded (start root))

/-- A search takes no goal out. -/
theorem goal_eq_false_of_mem_taken
    (hx : x ∈ ((start root).exploreUntil goal edges bounded).taken) : goal x = false := by
  refine exploreUntil_induction bounded (motive := fun t ↦ ∀ x ∈ t.taken, goal x = false)
    (fun x hx ↦ by cases hx) (fun t rest y hpop hy ht z hz ↦ ?_) x hx
  rw [taken_pushMany_of_pop? hpop] at hz
  rcases List.mem_append.mp hz with hz | hz
  · exact ht z hz
  · rwa [List.mem_singleton.mp hz]

/-- A search stops with a goal in front. -/
theorem goal_of_peek?_exploreUntil
    (h : (t.exploreUntil goal edges bounded).peek? = some x) : goal x = true := by
  fun_induction exploreUntil goal edges bounded t with
  | case1 t hpop =>
    rw [pop?, h] at hpop
    cases hpop
  | case2 t y rest hpop hgoal =>
    rw [peek?_of_pop? hpop] at h
    cases h
    exact hgoal
  | case3 t y rest hpop hgoal ih => exact ih h

/-- A breadth-first search finds the first of the words that lead to a goal, if there is one. -/
theorem pathToGoal?_cases (R : Ranking before edges) (goal : α → Bool) (root : α) :
    (pathToGoal? goal edges bounded root = none ∧
      ∀ v x, Walk edges root v x → goal x = false) ∨
    ∃ w x, pathToGoal? goal edges bounded root = some w ∧ Walk edges root w x ∧ goal x = true ∧
      ∀ v y, Walk edges root v y → goal y = true → Relation.ReflGen before w v := by
  obtain ⟨word, hword⟩ := exists_ranked_exploreUntil bounded R goal root
  have hgrounded : ((start root).exploreUntil goal edges bounded).Grounded :=
    (grounded_start root).exploreUntil bounded
  have hgoal : ∀ x, ((start root).exploreUntil goal edges bounded).peek? = some x → goal x = true :=
    fun x ↦ goal_of_peek?_exploreUntil bounded
  have htaken : ∀ x ∈ ((start root).exploreUntil goal edges bounded).taken, goal x = false :=
    fun x ↦ goal_eq_false_of_mem_taken bounded
  rw [pathToGoal?]
  generalize (start root).exploreUntil goal edges bounded = t at *
  -- The word of the node in front is no later than a walk to a goal, which was not taken out.
  have hfirst : ∀ v y, Walk edges root v y → goal y = true →
      ∃ x, t.peek? = some x ∧ Relation.ReflGen before (word x) v := by
    intro v y hv hy
    rcases hword.known_or_waiting R hv with ⟨hkey, hle⟩ | hwaiting
    · have hn : y ∉ t.taken := fun hmem ↦ by
        rw [htaken y hmem] at hy
        cases hy
      obtain ⟨x, hx, hxy⟩ := hword.exists_peek? hkey hn
      exact ⟨x, hx, R.reflGen_trans hxy hle⟩
    · exact hwaiting
  cases hpeek : t.peek? with
  | none =>
    refine .inl ⟨rfl, fun v y hv ↦ ?_⟩
    rw [← Bool.not_eq_true]
    intro hy
    obtain ⟨x, hx, _⟩ := hfirst v y hv hy
    rw [hpeek] at hx
    cases hx
  | some x =>
    have hx : x ∈ t.reached.keys := mem_keys_of_peek? hpeek
    refine .inr ⟨word x, x, ?_, hword.walk x hx, hgoal x hpeek, fun v y hv hy ↦ ?_⟩
    · simp only [hword.path?_eq hgrounded hx]
      rfl
    · obtain ⟨x', hx', hle⟩ := hfirst v y hv hy
      rw [hpeek] at hx'
      cases hx'
      exact hle

end Search

end LanguageTheory.Trail
