/-!
# Sets that remember insertion order

An `OrderedSet` lists each of its elements once, in the order in which they were first added.
Enumerations follow that order, so every construction that walks a set is deterministic.
The relation `≈` forgets the order and compares the elements only.

Spec guidance: `SPEC_FULL.md` §§4.1, 11.4.
-/

namespace LanguageTheory

universe u v

/-- Finite set listed in the order in which its elements were first added (§4.1). -/
@[ext]
structure OrderedSet (α : Type u) where
  toList : List α
  nodup : toList.Nodup
  deriving DecidableEq

namespace OrderedSet

variable {α : Type u} {β : Type v}

/-- Membership is membership in the listed elements. -/
instance : Membership α (OrderedSet α) := ⟨fun s x ↦ x ∈ s.toList⟩

/-- The view by elements, for rewriting membership to lists. -/
@[simp]
theorem mem_toList {s : OrderedSet α} {x : α} : x ∈ s.toList ↔ x ∈ s := Iff.rfl

/-- The set without elements. -/
def empty : OrderedSet α := ⟨[], List.nodup_nil⟩

instance : EmptyCollection (OrderedSet α) := ⟨empty⟩

instance : Inhabited (OrderedSet α) := ⟨∅⟩

/-- The set with the one element `x`. -/
def singleton (x : α) : OrderedSet α := ⟨[x], by simp⟩

/-- Number of elements. -/
def size (s : OrderedSet α) : Nat := s.toList.length

/-- Whether there is no element. -/
def isEmpty (s : OrderedSet α) : Bool := s.toList.isEmpty

/-- First element in insertion order. -/
def first? (s : OrderedSet α) : Option α := s.toList.head?

/-- Element at position `i` in insertion order. -/
def get? (s : OrderedSet α) (i : Nat) : Option α := s.toList[i]?

/-- The elements that satisfy `p`, in the same order. -/
def filter (p : α → Bool) (s : OrderedSet α) : OrderedSet α :=
  ⟨s.toList.filter p, s.nodup.filter p⟩

/-- The elements in increasing order. -/
def sorted [LE α] [DecidableLE α] (s : OrderedSet α) : List α :=
  s.toList.mergeSort fun x y ↦ decide (x ≤ y)

/-- Text of a set: `∅`, or the elements between braces in insertion order. -/
def render (text : α → String) (s : OrderedSet α) : String :=
  if s.isEmpty then "∅" else "\x7b" ++ String.intercalate ", " (s.toList.map text) ++ "\x7d"

/-- Two sets have the same elements, in any order. -/
def SameElements (s t : OrderedSet α) : Prop := ∀ x, x ∈ s ↔ x ∈ t

/-- Two sets are equivalent when they have the same elements. -/
instance : HasEquiv (OrderedSet α) := ⟨SameElements⟩

/-- Inclusion of elements. -/
def Subset (s t : OrderedSet α) : Prop := ∀ x ∈ s.toList, x ∈ t

instance : HasSubset (OrderedSet α) := ⟨Subset⟩

/-- Two sets are disjoint when no element is in both. -/
def Disjoint (s t : OrderedSet α) : Prop := ∀ x ∈ s.toList, x ∉ t

/-- Equivalence is inclusion both ways. -/
theorem equiv_iff_subset {s t : OrderedSet α} : s ≈ t ↔ s ⊆ t ∧ t ⊆ s :=
  ⟨fun h ↦ ⟨fun x ↦ (h x).1, fun x ↦ (h x).2⟩, fun h x ↦ ⟨h.1 x, h.2 x⟩⟩

/-- Membership in the empty set. -/
@[simp]
theorem notMem_empty (x : α) : x ∉ (∅ : OrderedSet α) := List.not_mem_nil

/-- Membership in a singleton. -/
@[simp]
theorem mem_singleton {x y : α} : x ∈ singleton y ↔ x = y := List.mem_singleton

/-- Membership after filtering. -/
@[simp]
theorem mem_filter {p : α → Bool} {s : OrderedSet α} {x : α} :
    x ∈ s.filter p ↔ x ∈ s ∧ p x = true := List.mem_filter

/-- Sorting keeps the elements. -/
@[simp]
theorem mem_sorted [LE α] [DecidableLE α] {s : OrderedSet α} {x : α} :
    x ∈ s.sorted ↔ x ∈ s := (List.mergeSort_perm s.toList _).mem_iff

/-- Sorting keeps the elements distinct. -/
theorem nodup_sorted [LE α] [DecidableLE α] (s : OrderedSet α) : s.sorted.Nodup :=
  (List.mergeSort_perm s.toList _).nodup_iff.2 s.nodup

/-- A set is empty exactly when it has no member. -/
theorem isEmpty_iff {s : OrderedSet α} : s.isEmpty = true ↔ ∀ x, x ∉ s := by
  simp only [isEmpty, List.isEmpty_iff]
  exact List.eq_nil_iff_forall_not_mem

section Decidable

variable [DecidableEq α] [DecidableEq β]

instance (x : α) (s : OrderedSet α) : Decidable (x ∈ s) :=
  inferInstanceAs (Decidable (x ∈ s.toList))

instance (s t : OrderedSet α) : Decidable (s ⊆ t) :=
  inferInstanceAs (Decidable (∀ x ∈ s.toList, x ∈ t))

instance (s t : OrderedSet α) : Decidable (s ≈ t) :=
  decidable_of_iff _ equiv_iff_subset.symm

instance (s t : OrderedSet α) : Decidable (Disjoint s t) :=
  inferInstanceAs (Decidable (∀ x ∈ s.toList, x ∉ t))

/-- Whether `x` is an element. -/
def contains (s : OrderedSet α) (x : α) : Bool := decide (x ∈ s)

/-- Position of `x` in insertion order. -/
def idxOf? (s : OrderedSet α) (x : α) : Option Nat := s.toList.idxOf? x

/-- Adds `x` at the end, unless it is already an element. -/
def insert (s : OrderedSet α) (x : α) : OrderedSet α :=
  if h : x ∈ s.toList then s
  else ⟨s.toList ++ [x], by
    refine List.nodup_append.2 ⟨s.nodup, by simp, fun y hy z hz hyz ↦ h ?_⟩
    rw [List.mem_singleton] at hz
    rwa [hyz, hz] at hy⟩

/-- Adds the elements of a list one after the other. -/
def insertMany (s : OrderedSet α) (xs : List α) : OrderedSet α := xs.foldl insert s

/-- The elements of a list, each at its first occurrence. -/
def ofList (xs : List α) : OrderedSet α := (∅ : OrderedSet α).insertMany xs

/-- The elements of `s`, then those of `t` that are new. -/
def union (s t : OrderedSet α) : OrderedSet α := s.insertMany t.toList

/-- The elements of `s` that are in `t`, in the order of `s`. -/
def inter (s t : OrderedSet α) : OrderedSet α := s.filter t.contains

/-- The elements of `s` that are not in `t`, in the order of `s`. -/
def sdiff (s t : OrderedSet α) : OrderedSet α := s.filter fun x ↦ !t.contains x

instance : Union (OrderedSet α) := ⟨union⟩

instance : Inter (OrderedSet α) := ⟨inter⟩

instance : SDiff (OrderedSet α) := ⟨sdiff⟩

/-- Union of a family of sets, from left to right. -/
def unionAll (sets : List (OrderedSet α)) : OrderedSet α := sets.foldl union ∅

/-- All pairs in lexicographic order: first those with the first element of `s`, and so on. -/
def product (s : OrderedSet α) (t : OrderedSet β) : OrderedSet (α × β) :=
  ofList (s.toList.flatMap fun x ↦ t.toList.map fun y ↦ (x, y))

/-- The images of the elements, each at its first occurrence. -/
def map (f : α → β) (s : OrderedSet α) : OrderedSet β := ofList (s.toList.map f)

/-- Deciding membership as a Boolean agrees with membership. -/
@[simp]
theorem contains_iff {s : OrderedSet α} {x : α} : s.contains x = true ↔ x ∈ s := by
  simp [contains]

/-- An element that is already listed keeps its place. -/
theorem insert_of_mem {s : OrderedSet α} {x : α} (h : x ∈ s) : s.insert x = s := by
  simp only [insert, dif_pos (mem_toList.2 h)]

/-- A new element goes to the end. -/
theorem toList_insert_of_notMem {s : OrderedSet α} {x : α} (h : x ∉ s) :
    (s.insert x).toList = s.toList ++ [x] := by
  have h' : x ∉ s.toList := h
  simp only [insert, dif_neg h']

/-- The elements after an insertion. -/
@[simp]
theorem mem_insert {s : OrderedSet α} {x y : α} : y ∈ s.insert x ↔ y ∈ s ∨ y = x := by
  by_cases h : x ∈ s
  · rw [insert_of_mem h]
    exact ⟨Or.inl, fun hy ↦ hy.elim id fun e ↦ e ▸ h⟩
  · rw [← mem_toList, toList_insert_of_notMem h]
    simp

/-- The elements after several insertions. -/
@[simp]
theorem mem_insertMany {s : OrderedSet α} {xs : List α} {y : α} :
    y ∈ s.insertMany xs ↔ y ∈ s ∨ y ∈ xs := by
  induction xs generalizing s with
  | nil => simp [insertMany]
  | cons x xs ih =>
    have h := ih (s := s.insert x)
    simp only [insertMany, List.foldl_cons] at h ⊢
    rw [h, mem_insert, List.mem_cons, or_assoc]

/-- A set built from a list has the elements of the list. -/
@[simp]
theorem mem_ofList {xs : List α} {y : α} : y ∈ ofList xs ↔ y ∈ xs := by
  simp [ofList]

/-- The elements of a union. -/
@[simp]
theorem mem_union {s t : OrderedSet α} {y : α} : y ∈ s ∪ t ↔ y ∈ s ∨ y ∈ t :=
  mem_insertMany

/-- The elements of an intersection. -/
@[simp]
theorem mem_inter {s t : OrderedSet α} {y : α} : y ∈ s ∩ t ↔ y ∈ s ∧ y ∈ t := by
  change y ∈ s.filter t.contains ↔ _
  simp

/-- The elements of a difference. -/
@[simp]
theorem mem_sdiff {s t : OrderedSet α} {y : α} : y ∈ s \ t ↔ y ∈ s ∧ y ∉ t := by
  change y ∈ s.filter (fun x ↦ !t.contains x) ↔ _
  simp [contains]

/-- The elements of the union of a family. -/
@[simp]
theorem mem_unionAll {sets : List (OrderedSet α)} {y : α} :
    y ∈ unionAll sets ↔ ∃ s ∈ sets, y ∈ s := by
  have general : ∀ (acc : OrderedSet α),
      y ∈ sets.foldl union acc ↔ y ∈ acc ∨ ∃ s ∈ sets, y ∈ s := by
    induction sets with
    | nil => simp
    | cons s sets ih =>
      intro acc
      have hu : y ∈ acc.union s ↔ y ∈ acc ∨ y ∈ s := mem_union
      rw [List.foldl_cons, ih, hu]
      simp [or_assoc]
  simpa [unionAll] using general ∅

/-- The pairs of a product. -/
@[simp]
theorem mem_product {s : OrderedSet α} {t : OrderedSet β} {p : α × β} :
    p ∈ s.product t ↔ p.1 ∈ s ∧ p.2 ∈ t := by
  obtain ⟨x, y⟩ := p
  simp [product]

omit [DecidableEq α] in
/-- The elements of an image. -/
@[simp]
theorem mem_map {f : α → β} {s : OrderedSet α} {y : β} :
    y ∈ s.map f ↔ ∃ x ∈ s, f x = y := by
  simp [map]

/-- Insertion only appends: the old elements stay in front. -/
theorem prefix_toList_insertMany (s : OrderedSet α) (xs : List α) :
    s.toList <+: (s.insertMany xs).toList := by
  induction xs generalizing s with
  | nil => exact List.prefix_rfl
  | cons x xs ih =>
    refine List.IsPrefix.trans ?_ (ih (s.insert x))
    by_cases h : x ∈ s
    · exact (insert_of_mem h).symm ▸ List.prefix_rfl
    · exact toList_insert_of_notMem h ▸ List.prefix_append _ _

end Decidable

end OrderedSet

end LanguageTheory
