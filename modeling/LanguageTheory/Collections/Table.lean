/-!
# Tables that remember insertion order

A `Table` maps keys to values and lists its entries in the order in which their keys were first
added; changing the value of a key leaves the key in its place. The relation `≈` forgets the order
and compares values up to their own equivalence.

Spec guidance: `SPEC_FULL.md` §11.4.
-/

namespace LanguageTheory

universe u v w

/-- Finite map listed in the order in which its keys were first added. -/
@[ext]
structure Table (α : Type u) (β : Type v) where
  entries : List (α × β)
  nodup_keys : (entries.map Prod.fst).Nodup
  deriving DecidableEq

namespace Table

variable {α : Type u} {β : Type v} {γ : Type w}

/-- The table without entries. -/
def empty : Table α β := ⟨[], List.nodup_nil⟩

instance : EmptyCollection (Table α β) := ⟨empty⟩

instance : Inhabited (Table α β) := ⟨∅⟩

/-- The keys in insertion order. -/
def keys (t : Table α β) : List α := t.entries.map Prod.fst

/-- The values in the order of their keys. -/
def values (t : Table α β) : List β := t.entries.map Prod.snd

/-- Number of entries. -/
def size (t : Table α β) : Nat := t.entries.length

/-- Applies `f` to every value, given its key. -/
def mapValues (f : α → β → γ) (t : Table α β) : Table α γ :=
  ⟨t.entries.map fun e ↦ (e.1, f e.1 e.2), by
    have h : (t.entries.map fun e ↦ (e.1, f e.1 e.2)).map Prod.fst = t.entries.map Prod.fst := by
      simp
    rw [h]
    exact t.nodup_keys⟩

/-- The entries whose key satisfies `p`. -/
def filterKeys (p : α → Bool) (t : Table α β) : Table α β :=
  ⟨t.entries.filter fun e ↦ p e.1,
    List.Pairwise.sublist (List.Sublist.map _ List.filter_sublist) t.nodup_keys⟩

/-- The keys of a table whose values were changed. -/
@[simp]
theorem keys_mapValues (f : α → β → γ) (t : Table α β) : (t.mapValues f).keys = t.keys := by
  simp [keys, mapValues]

/-- The keys that are left by a filter. -/
@[simp]
theorem keys_filterKeys (p : α → Bool) (t : Table α β) :
    (t.filterKeys p).keys = t.keys.filter p := by
  simp [keys, filterKeys, List.filter_map, Function.comp_def]

section Decidable

variable [DecidableEq α]

/-- The value of a key. -/
def get? (t : Table α β) (k : α) : Option β := t.entries.lookup k

/-- Whether a key has a value. -/
def contains (t : Table α β) (k : α) : Bool := decide (k ∈ t.keys)

/-- The value of a key, or `d` if it has none. -/
def getD (t : Table α β) (k : α) (d : β) : β := (t.get? k).getD d

/-- Replaces the value of `k` by `f` of it; a key without a value goes to the end. -/
def upsert (t : Table α β) (k : α) (f : Option β → β) : Table α β :=
  if h : k ∈ t.entries.map Prod.fst then
    t.mapValues fun k' v ↦ if k' = k then f (some v) else v
  else ⟨t.entries ++ [(k, f none)], by
    rw [List.map_append]
    refine List.nodup_append.2 ⟨t.nodup_keys, by simp, fun y hy z hz hyz ↦ h ?_⟩
    rw [List.map_cons, List.map_nil, List.mem_singleton] at hz
    rwa [hyz, hz] at hy⟩

/-- Sets the value of `k`. -/
def insert (t : Table α β) (k : α) (v : β) : Table α β := t.upsert k fun _ ↦ v

/-- Changes the value of `k`, if it has one. -/
def modify (t : Table α β) (k : α) (f : β → β) : Table α β :=
  t.mapValues fun k' v ↦ if k' = k then f v else v

/-- Sets the values of several keys, one after the other. -/
def insertMany (t : Table α β) (es : List (α × β)) : Table α β :=
  es.foldl (fun t e ↦ t.insert e.1 e.2) t

/-- The table of a list of entries; a repeated key keeps its first place and its last value. -/
def ofList (es : List (α × β)) : Table α β := (∅ : Table α β).insertMany es

/-- Two tables are equivalent when they give equivalent values to the same keys. -/
instance [HasEquiv β] : HasEquiv (Table α β) :=
  ⟨fun s t ↦ (∀ k, k ∈ s.keys ↔ k ∈ t.keys) ∧
    ∀ k, ∀ v ∈ s.get? k, ∀ w ∈ t.get? k, v ≈ w⟩

/-- A listed entry is the value of its key. -/
theorem get?_eq_some_iff {t : Table α β} {k : α} {v : β} :
    t.get? k = some v ↔ (k, v) ∈ t.entries := by
  obtain ⟨es, hes⟩ := t
  simp only [get?]
  induction es with
  | nil => simp
  | cons e es ih =>
    obtain ⟨k', v'⟩ := e
    rw [List.map_cons, List.nodup_cons] at hes
    rw [List.lookup_cons]
    by_cases hk : k = k'
    · subst hk
      simp only [beq_self_eq_true, List.mem_cons, Prod.mk.injEq, true_and]
      refine ⟨fun h ↦ Or.inl (Option.some.inj h).symm, fun h ↦ ?_⟩
      rcases h with h | h
      · rw [h]
      · exact absurd (List.mem_map.2 ⟨_, h, rfl⟩) hes.1
    · have hb : (k == k') = false := by simpa using hk
      simp only [hb, List.mem_cons, Prod.mk.injEq, hk, false_and, false_or]
      exact ih hes.2

/-- A key has no value exactly when it is not listed. -/
theorem get?_eq_none_iff {t : Table α β} {k : α} : t.get? k = none ↔ k ∉ t.keys := by
  constructor
  · intro h hk
    obtain ⟨⟨k', v⟩, he, rfl⟩ := List.mem_map.1 hk
    rw [get?_eq_some_iff.2 he] at h
    cases h
  · intro h
    cases hv : t.get? k with
    | none => rfl
    | some v => exact absurd (List.mem_map.2 ⟨_, get?_eq_some_iff.1 hv, rfl⟩) h

/-- Deciding whether a key is listed agrees with being listed. -/
@[simp]
theorem contains_iff {t : Table α β} {k : α} : t.contains k = true ↔ k ∈ t.keys := by
  simp [contains]

/-- Looking up a changed value. -/
theorem get?_mapValues (f : α → β → γ) (t : Table α β) (k : α) :
    (t.mapValues f).get? k = (t.get? k).map (f k) := by
  cases h : t.get? k with
  | none =>
    rw [get?_eq_none_iff] at h
    exact get?_eq_none_iff.2 (by simpa using h)
  | some v =>
    rw [get?_eq_some_iff] at h
    refine get?_eq_some_iff.2 (List.mem_map.2 ⟨(k, v), h, rfl⟩)

/-- Looking up a key after one key was given a new value. -/
theorem get?_upsert (t : Table α β) (k : α) (f : Option β → β) (k' : α) :
    (t.upsert k f).get? k' = if k' = k then some (f (t.get? k)) else t.get? k' := by
  by_cases h : k ∈ t.keys
  · have h' : k ∈ t.entries.map Prod.fst := h
    simp only [upsert, dif_pos h', get?_mapValues]
    by_cases hk : k' = k
    · subst hk
      cases hv : t.get? k' with
      | none => exact absurd h (get?_eq_none_iff.1 hv)
      | some v => simp
    · simp [hk]
  · have h' : k ∉ t.entries.map Prod.fst := h
    have hn : t.get? k = none := get?_eq_none_iff.2 h
    have hv : ∀ v, (t.upsert k f).get? k' = some v ↔
        (if k' = k then some (f (t.get? k)) else t.get? k') = some v := by
      intro v
      rw [get?_eq_some_iff]
      simp only [upsert, dif_neg h', List.mem_append, List.mem_singleton, Prod.mk.injEq]
      by_cases hk : k' = k
      · subst hk
        simp only [← get?_eq_some_iff, hn, if_true, true_and, Option.some.injEq]
        exact ⟨fun h ↦ h.elim (fun h ↦ nomatch h) Eq.symm, fun h ↦ Or.inr h.symm⟩
      · simp [hk, get?_eq_some_iff]
    exact Option.ext hv

/-- The keys after one key was given a new value. -/
theorem mem_keys_upsert {t : Table α β} {k k' : α} {f : Option β → β} :
    k' ∈ (t.upsert k f).keys ↔ k' ∈ t.keys ∨ k' = k := by
  by_cases h : k ∈ t.keys
  · have h' : k ∈ t.entries.map Prod.fst := h
    simp only [upsert, dif_pos h', keys_mapValues]
    exact ⟨Or.inl, fun hk ↦ hk.elim id fun e ↦ e ▸ h⟩
  · have h' : k ∉ t.entries.map Prod.fst := h
    simp [keys, upsert, dif_neg h']

/-- Setting a value, seen through look-up. -/
theorem get?_insert (t : Table α β) (k : α) (v : β) (k' : α) :
    (t.insert k v).get? k' = if k' = k then some v else t.get? k' :=
  get?_upsert t k _ k'

section Equivalence

variable [HasEquiv β] [∀ v w : β, Decidable (v ≈ w)]

instance (s t : Table α β) : Decidable (s ≈ t) :=
  decidable_of_iff
    ((∀ k ∈ s.keys, k ∈ t.keys) ∧ (∀ k ∈ t.keys, k ∈ s.keys) ∧
      ∀ e ∈ s.entries, ∀ w ∈ t.get? e.1, e.2 ≈ w) <| by
    constructor
    · rintro ⟨h₁, h₂, h₃⟩
      exact ⟨fun k ↦ ⟨h₁ k, h₂ k⟩, fun k v hv w hw ↦ h₃ (k, v) (get?_eq_some_iff.1 hv) w hw⟩
    · rintro ⟨h₁, h₂⟩
      exact ⟨fun k ↦ (h₁ k).1, fun k ↦ (h₁ k).2,
        fun e he w hw ↦ h₂ e.1 e.2 (get?_eq_some_iff.2 he) w hw⟩

end Equivalence

end Decidable

end Table

end LanguageTheory
