import LanguageTheory.Collections.OrderedSet
import LanguageTheory.Collections.Table
import Mathlib.Data.List.Nodup

/-!
# Looking up changed tables

What the keys and values of a table are after several insertions, after a change of one value and
after a filter of the keys. Each operation is described through `get?` and `keys` once, so that
nothing else has to open the list of entries. A table of sets is described by the elements that it
lists for each key.
-/

namespace LanguageTheory

universe u v

/-- What holds after one step exactly when it held before or the step brings it holds after several
steps exactly when it held before or one of them brings it. -/
theorem foldl_iff {σ : Type u} {α : Type v} {step : σ → α → σ} (holds : σ → Prop)
    (brings : α → Prop) (h : ∀ s x, holds (step s x) ↔ holds s ∨ brings x) (s : σ)
    (xs : List α) :
    holds (xs.foldl step s) ↔ holds s ∨ ∃ x ∈ xs, brings x := by
  induction xs generalizing s with
  | nil => simp
  | cons x xs ih => rw [List.foldl_cons, ih, h, List.exists_mem_cons_iff, or_assoc]

namespace Table

variable {α : Type u} {β : Type v} [DecidableEq α]

/-- A key is listed exactly when it has a value. -/
theorem mem_keys_iff {t : Table α β} {k : α} : k ∈ t.keys ↔ ∃ v, t.get? k = some v := by
  constructor
  · intro h
    cases hv : t.get? k with
    | none => exact absurd h (get?_eq_none_iff.mp hv)
    | some v => exact ⟨v, rfl⟩
  · rintro ⟨v, hv⟩
    refine Classical.byContradiction fun h ↦ ?_
    rw [get?_eq_none_iff.mpr h] at hv
    cases hv

/-- The values are those of the keys. -/
theorem mem_values_iff {t : Table α β} {v : β} : v ∈ t.values ↔ ∃ k, t.get? k = some v := by
  constructor
  · intro h
    obtain ⟨⟨k, w⟩, he, rfl⟩ := List.mem_map.mp h
    exact ⟨k, get?_eq_some_iff.mpr he⟩
  · rintro ⟨k, hk⟩
    exact List.mem_map.mpr ⟨(k, v), get?_eq_some_iff.mp hk, rfl⟩

/-- A new value adds its key. -/
theorem mem_keys_insert {t : Table α β} {k k' : α} {v : β} :
    k' ∈ (t.insert k v).keys ↔ k' ∈ t.keys ∨ k' = k := mem_keys_upsert

/-- A new key goes to the end. -/
theorem entries_insert_of_notMem {t : Table α β} {k : α} {v : β} (h : k ∉ t.keys) :
    (t.insert k v).entries = t.entries ++ [(k, v)] := by
  have hkeys : k ∉ t.entries.map Prod.fst := h
  rw [insert, upsert, dif_neg hkeys]

/-- A new value of a listed key leaves the list of keys as it is. -/
theorem keys_insert_of_mem {t : Table α β} {k : α} (v : β) (h : k ∈ t.keys) :
    (t.insert k v).keys = t.keys := by
  have h' : k ∈ t.entries.map Prod.fst := h
  simp only [insert, upsert, dif_pos h', keys_mapValues]

/-- Looking up a filtered table. -/
theorem get?_filterKeys (p : α → Bool) (t : Table α β) (k : α) :
    (t.filterKeys p).get? k = if p k then t.get? k else none := by
  apply Option.ext
  intro v
  rw [get?_eq_some_iff]
  simp only [filterKeys, List.mem_filter]
  by_cases hk : p k = true
  · rw [if_pos hk, get?_eq_some_iff]
    exact ⟨fun h ↦ h.1, fun h ↦ ⟨h, hk⟩⟩
  · rw [if_neg hk]
    exact ⟨fun h ↦ absurd h.2 hk, fun h ↦ by cases h⟩

/-- Looking up a table after one value was changed. -/
theorem get?_modify (t : Table α β) (k : α) (f : β → β) (k' : α) :
    (t.modify k f).get? k' = if k' = k then (t.get? k').map f else t.get? k' := by
  rw [modify, get?_mapValues]
  by_cases hk : k' = k
  · simp [hk]
  · simp [hk]

/-- Several insertions add their keys. -/
theorem mem_keys_insertMany {t : Table α β} {es : List (α × β)} {k : α} :
    k ∈ (t.insertMany es).keys ↔ k ∈ t.keys ∨ k ∈ es.map Prod.fst := by
  induction es generalizing t with
  | nil => simp [insertMany]
  | cons e es ih =>
    change k ∈ ((t.insert e.1 e.2).insertMany es).keys ↔ _
    rw [ih, mem_keys_insert, List.map_cons, List.mem_cons, or_assoc]

/-- A table of a list has the keys of the list. -/
theorem mem_keys_ofList {es : List (α × β)} {k : α} :
    k ∈ (ofList es).keys ↔ k ∈ es.map Prod.fst :=
  mem_keys_insertMany.trans (or_iff_right List.not_mem_nil)

/-- A key that is not inserted keeps its value. -/
theorem get?_insertMany_of_notMem {t : Table α β} {es : List (α × β)} {k : α}
    (h : k ∉ es.map Prod.fst) : (t.insertMany es).get? k = t.get? k := by
  induction es generalizing t with
  | nil => rfl
  | cons e es ih =>
    rw [List.map_cons, List.mem_cons, not_or] at h
    change ((t.insert e.1 e.2).insertMany es).get? k = _
    rw [ih h.2, get?_insert, if_neg h.1]

/-- A key that is inserted with one value only has this value. -/
theorem get?_insertMany_of_unique {t : Table α β} {es : List (α × β)} {k : α} {v : β}
    (h : (k, v) ∈ es) (hv : ∀ w, (k, w) ∈ es → w = v) : (t.insertMany es).get? k = some v := by
  have hk : k ∈ es.map Prod.fst := List.mem_map.mpr ⟨_, h, rfl⟩
  clear h
  induction es generalizing t with
  | nil => cases hk
  | cons e es ih =>
    change ((t.insert e.1 e.2).insertMany es).get? k = _
    by_cases hes : k ∈ es.map Prod.fst
    · exact ih (fun w hw ↦ hv w (List.mem_cons_of_mem _ hw)) hes
    · have he : k = e.1 := (List.mem_cons.mp hk).resolve_right hes
      subst he
      rw [get?_insertMany_of_notMem hes, get?_insert, if_pos rfl, hv e.2 List.mem_cons_self]

/-- Of distinct keys that are inserted, each has its new value. -/
theorem get?_insertMany_of_mem {t : Table α β} {es : List (α × β)} {k : α} {v : β}
    (hn : (es.map Prod.fst).Nodup) (h : (k, v) ∈ es) : (t.insertMany es).get? k = some v := by
  refine get?_insertMany_of_unique h fun w hw ↦ ?_
  have he : (k, w) = (k, v) := List.inj_on_of_nodup_map hn hw h rfl
  exact congrArg Prod.snd he

/-- A table of a list in which equal keys have equal values has the entries of the list. -/
theorem get?_ofList_iff {es : List (α × β)} (hes : ∀ k v w, (k, v) ∈ es → (k, w) ∈ es → v = w)
    {k : α} {v : β} : (ofList es).get? k = some v ↔ (k, v) ∈ es := by
  constructor
  · intro hv
    obtain ⟨⟨k', w⟩, hw, rfl⟩ :=
      List.mem_map.mp (mem_keys_ofList.mp (mem_keys_iff.mpr ⟨v, hv⟩))
    rw [ofList, get?_insertMany_of_unique hw fun x hx ↦ hes _ x w hx hw] at hv
    cases hv
    exact hw
  · intro h
    exact get?_insertMany_of_unique h fun w hw ↦ hes k w v hw h

/-- Insertion of all entries of a table keeps the values of the other keys. -/
theorem get?_insertMany_entries (s t : Table α β) (k : α) :
    (s.insertMany t.entries).get? k = (t.get? k).or (s.get? k) := by
  cases h : t.get? k with
  | none => exact get?_insertMany_of_notMem (get?_eq_none_iff.mp h)
  | some v => exact get?_insertMany_of_mem t.nodup_keys (get?_eq_some_iff.mp h)

/-! ### The order of keys -/

/-- The keys as a set, in insertion order. -/
def keySet (t : Table α β) : OrderedSet α := ⟨t.keys, t.nodup_keys⟩

/-- A key that was given a value is added to the keys. -/
theorem keySet_upsert (t : Table α β) (k : α) (f : Option β → β) :
    (t.upsert k f).keySet = t.keySet.insert k := by
  by_cases h : k ∈ t.keys
  · have h' : k ∈ t.entries.map Prod.fst := h
    rw [OrderedSet.insert_of_mem (s := t.keySet) h]
    apply OrderedSet.ext
    simp only [keySet, upsert, dif_pos h', keys_mapValues]
  · have h' : k ∉ t.entries.map Prod.fst := h
    apply OrderedSet.ext
    rw [OrderedSet.toList_insert_of_notMem (s := t.keySet) h]
    simp [keySet, keys, upsert, dif_neg h']

/-- Several values add their keys, in the same order. -/
theorem keySet_insertMany (t : Table α β) (es : List (α × β)) :
    (t.insertMany es).keySet = t.keySet.insertMany (es.map Prod.fst) := by
  induction es generalizing t with
  | nil => rfl
  | cons e es ih =>
    change ((t.insert e.1 e.2).insertMany es).keySet = _
    rw [ih, insert, keySet_upsert]
    rfl

/-- Tables with the same keys in the same order and the same values are the same. -/
theorem ext_get? {s t : Table α β} (hkeys : s.keySet = t.keySet) (h : ∀ k, s.get? k = t.get? k) :
    s = t := by
  -- The entries are the keys with their values.
  have hentries : ∀ t : Table α β, t.entries = t.keys.filterMap fun k ↦ (t.get? k).map (k, ·) := by
    intro t
    rw [keys, List.filterMap_map]
    refine ((List.filterMap_congr fun e he ↦ ?_).trans List.filterMap_some).symm
    rw [Function.comp_apply, get?_eq_some_iff.mpr he]
    rfl
  have hlist : s.keys = t.keys := congrArg OrderedSet.toList hkeys
  apply Table.ext
  rw [hentries s, hentries t, hlist]
  simp only [h]

/-! ### Tables of sets -/

/-- An element is in the set of a key. -/
def Lists (t : Table α (OrderedSet β)) (k : α) (x : β) : Prop := ∃ s, t.get? k = some s ∧ x ∈ s

/-- Nothing is listed in the table without entries. -/
theorem not_lists_empty {k : α} {x : β} : ¬ (∅ : Table α (OrderedSet β)).Lists k x := by
  rintro ⟨s, hs, _⟩
  cases hs

/-- An element that is added to the set of a key is listed for it, and nothing else changes. -/
theorem lists_upsert_insert [DecidableEq β] {t : Table α (OrderedSet β)} {k k' : α} {x y : β} :
    (t.upsert k fun s ↦ (s.getD ∅).insert x).Lists k' y ↔ t.Lists k' y ∨ k' = k ∧ y = x := by
  unfold Lists
  rw [get?_upsert]
  by_cases hk : k' = k
  · subst hk
    cases t.get? k' with
    | none => simp
    | some s => simp
  · simp [hk]

/-- Every key has a set with an element. -/
def Filled (t : Table α (OrderedSet β)) : Prop := ∀ k s, t.get? k = some s → ∃ x, x ∈ s

/-- The table without entries has no empty set. -/
theorem filled_empty : (∅ : Table α (OrderedSet β)).Filled := fun _ _ h ↦ nomatch h

/-- A key that is new gets its set with the element that is added. -/
theorem Filled.upsert_insert [DecidableEq β] {t : Table α (OrderedSet β)} (h : t.Filled) (k : α)
    (x : β) : (t.upsert k fun s ↦ (s.getD ∅).insert x).Filled := by
  intro k' s hs
  rw [get?_upsert] at hs
  split at hs
  · cases hs
    exact ⟨x, OrderedSet.mem_insert.mpr (.inr rfl)⟩
  · exact h k' s hs

/-- In a table without empty sets, something is listed for each key. -/
theorem Filled.exists_lists {t : Table α (OrderedSet β)} (h : t.Filled) {k : α} {s : OrderedSet β}
    (hs : t.get? k = some s) : ∃ x, t.Lists k x := (h k s hs).imp fun _ hx ↦ ⟨s, hs, hx⟩

end Table

end LanguageTheory
