import LanguageTheory.Proofs.Nfa.Paths
import LanguageTheory.Proofs.Regex.Language

/-!
# Graphs whose arcs stand for words

A walk spells the words of its arcs one after the other. A state with no other arcs than those from
one state, to one state and to itself can be eliminated: walks through it are replaced by arcs that
stand for whole detours.
-/

namespace LanguageTheory

open Computability

/-- Graph on numbered states whose arcs stand for words. -/
structure WordGraph where
  /-- Whether an arc from a state to a state stands for a word. -/
  Arc : Nat → List Char → Nat → Prop

namespace WordGraph

variable {X Y Z : WordGraph} {i j k n s t : Nat} {u v w : List Char} {L P Q : Language Char}

/-- Graphs are equal when they have the same arcs. -/
@[ext]
protected theorem ext (h : ∀ i w j, X.Arc i w j ↔ Y.Arc i w j) : X = Y := by
  cases X
  cases Y
  congr
  funext i w j
  exact propext (h i w j)

/-- The graph without arcs. -/
instance : EmptyCollection WordGraph := ⟨⟨fun _ _ _ ↦ False⟩⟩

/-- The graph with the arcs of both graphs. -/
instance : Union WordGraph := ⟨fun X Y ↦ ⟨fun i w j ↦ X.Arc i w j ∨ Y.Arc i w j⟩⟩

/-- The arcs from one state to another for the words of a language. -/
def arcs (i : Nat) (L : Language Char) (j : Nat) : WordGraph :=
  ⟨fun s w t ↦ s = i ∧ w ∈ L ∧ t = j⟩

/-! ### Unions -/

/-- Unions do not depend on where they are begun. -/
theorem union_assoc (X Y Z : WordGraph) : X ∪ Y ∪ Z = X ∪ (Y ∪ Z) := by
  ext i w j
  exact or_assoc

/-- Unions do not depend on the order. -/
theorem union_comm (X Y : WordGraph) : X ∪ Y = Y ∪ X := by
  ext i w j
  exact or_comm

instance : Std.Associative (α := WordGraph) (· ∪ ·) := ⟨union_assoc⟩

instance : Std.Commutative (α := WordGraph) (· ∪ ·) := ⟨union_comm⟩

/-- The last two parts of a union may change places. -/
theorem union_right_comm (X Y Z : WordGraph) : X ∪ Y ∪ Z = X ∪ Z ∪ Y := by ac_rfl

/-- The graph without arcs adds none. -/
@[simp]
theorem union_empty (X : WordGraph) : X ∪ ∅ = X := by
  ext i w j
  exact or_iff_left id

/-- Nothing is added to the graph without arcs. -/
@[simp]
theorem empty_union (X : WordGraph) : ∅ ∪ X = X := by rw [union_comm, union_empty]

/-- A union of languages stands for both kinds of arcs. -/
theorem arcs_add (i : Nat) (L P : Language Char) (j : Nat) :
    arcs i (L + P) j = arcs i L j ∪ arcs i P j := by
  ext s w t
  constructor
  · rintro ⟨hs, hw | hw, ht⟩
    · exact Or.inl ⟨hs, hw, ht⟩
    · exact Or.inr ⟨hs, hw, ht⟩
  · rintro (⟨hs, hw, ht⟩ | ⟨hs, hw, ht⟩)
    · exact ⟨hs, Or.inl hw, ht⟩
    · exact ⟨hs, Or.inr hw, ht⟩

/-- No word, no arc. -/
theorem arcs_zero (i j : Nat) : arcs i 0 j = ∅ := by
  ext s w t
  constructor
  · rintro ⟨_, hw, _⟩
    exact Language.notMem_zero w hw
  · exact False.elim

/-! ### Walks -/

/-- The words along the walks from one state to another. -/
inductive Walk (X : WordGraph) : Nat → List Char → Nat → Prop where
  | refl (i : Nat) : Walk X i [] i
  | step {i j k : Nat} {u v : List Char} : X.Arc i u j → Walk X j v k → Walk X i (u ++ v) k

/-- An arc is a walk. -/
theorem Walk.single (h : X.Arc i w j) : X.Walk i w j := by
  rw [← List.append_nil w]
  exact .step h (.refl j)

/-- Two walks one after the other are a walk. -/
theorem Walk.append (hu : X.Walk i u j) (hv : X.Walk j v k) : X.Walk i (u ++ v) k := by
  induction hu with
  | refl => exact hv
  | step h _ ih =>
    rw [List.append_assoc]
    exact .step h (ih hv)

/-- Arcs may be replaced by walks of another graph. -/
theorem Walk.bind (hX : ∀ i w j, X.Arc i w j → Y.Walk i w j) (h : X.Walk i w j) : Y.Walk i w j := by
  induction h with
  | refl i => exact .refl i
  | step h _ ih => exact (hX _ _ _ h).append ih

/-- Words of a loop can be repeated. -/
theorem Walk.kstar (hL : ∀ u ∈ L, X.Walk i u i) (hw : w ∈ L∗) : X.Walk i w i := by
  obtain ⟨parts, rfl, hparts⟩ := Language.mem_kstar.mp hw
  clear hw
  induction parts with
  | nil => exact .refl i
  | cons part parts ih =>
    rw [List.forall_mem_cons] at hparts
    exact (hL part hparts.1).append (ih hparts.2)

/-- Between two states with nothing else in the graph, walks are arcs. -/
theorem walk_arcs_iff (hij : i ≠ j) : (arcs i L j).Walk i w j ↔ w ∈ L := by
  constructor
  · intro h
    cases h with
    | refl => exact absurd rfl hij
    | step h hrest =>
      obtain ⟨_, hu, rfl⟩ := h
      cases hrest with
      | refl => rwa [List.append_nil]
      | step h _ => exact absurd h.1.symm hij
  · intro hw
    exact .single ⟨rfl, hw, rfl⟩

/-! ### Elimination of a state -/

/-- A graph has arcs between states below a bound only. -/
def Within (X : WordGraph) (n : Nat) : Prop := ∀ s w t, X.Arc s w t → s < n ∧ t < n

/-- A union of graphs stays below a bound when both do. -/
theorem Within.union (hX : X.Within n) (hY : Y.Within n) : (X ∪ Y).Within n :=
  fun s w t h ↦ h.elim (hX s w t) (hY s w t)

/-- What is below a bound is below a larger one. -/
theorem Within.mono {n' : Nat} (hX : X.Within n) (h : n ≤ n') : X.Within n' := fun s w t hst ↦
  ⟨(hX s w t hst).1.trans_le h, (hX s w t hst).2.trans_le h⟩

/-- Arcs stay below a bound when their ends do. -/
theorem within_arcs (hi : i < n) (hj : j < n) : (arcs i L j).Within n := by
  rintro s w t ⟨rfl, _, rfl⟩
  exact ⟨hi, hj⟩

section Eliminate

variable (hX : X.Within n) (hi : i < n) (hj : j < n)

include hX hi hj

/-- A walk that ends below the bound and begins at the state to be eliminated finishes a detour
there; other walks need no such state. -/
private theorem walk_of_eliminated (ht : t < n)
    (h : (X ∪ arcs i P n ∪ arcs n L n ∪ arcs n Q j).Walk s w t) :
    (s < n → (X ∪ arcs i (P * L∗ * Q) j).Walk s w t) ∧
      (s = n → ∃ u ∈ L∗ * Q, ∃ v, w = u ++ v ∧ (X ∪ arcs i (P * L∗ * Q) j).Walk j v t) := by
  induction h with
  | refl s => exact ⟨fun _ ↦ .refl s, fun hs ↦ absurd hs (Nat.ne_of_lt ht)⟩
  | @step s k t u v h _ ih =>
    obtain ⟨ihbelow, ihdetour⟩ := ih ht
    rcases h with ((h | ⟨rfl, hu, rfl⟩) | ⟨rfl, hu, rfl⟩) | ⟨rfl, hu, rfl⟩
    · obtain ⟨hs, hk⟩ := hX s u k h
      exact ⟨fun _ ↦ .step (Or.inl h) (ihbelow hk), fun he ↦ absurd he (Nat.ne_of_lt hs)⟩
    · -- The detour begins.
      refine ⟨fun _ ↦ ?_, fun he ↦ absurd he (Nat.ne_of_lt hi)⟩
      obtain ⟨x, hx, y, rfl, hwalk⟩ := ihdetour rfl
      rw [← List.append_assoc]
      refine .step (Or.inr ⟨rfl, ?_, rfl⟩) hwalk
      rw [mul_assoc]
      exact Language.append_mem_mul hu hx
    · -- The detour goes once around.
      refine ⟨fun he ↦ absurd he (Nat.lt_irrefl _), fun _ ↦ ?_⟩
      obtain ⟨x, hx, y, rfl, hwalk⟩ := ihdetour rfl
      obtain ⟨a, ha, b, hb, rfl⟩ := Language.mem_mul.mp hx
      refine ⟨u ++ (a ++ b), ?_, y, (List.append_assoc _ _ _).symm, hwalk⟩
      rw [← List.append_assoc]
      exact Language.append_mem_mul (Regex.append_mem_kstar hu ha) hb
    · -- The detour ends.
      refine ⟨fun he ↦ absurd he (Nat.lt_irrefl _), fun _ ↦ ⟨u, ?_, v, rfl, ihbelow hj⟩⟩
      exact Language.append_mem_mul (Language.nil_mem_kstar L) hu

omit hX hi hj in
/-- A detour over a state is a walk. -/
private theorem walk_detour (hw : w ∈ P * L∗ * Q) :
    (X ∪ arcs i P n ∪ arcs n L n ∪ arcs n Q j).Walk i w j := by
  obtain ⟨y, hy, q, hq, rfl⟩ := Language.mem_mul.mp hw
  obtain ⟨p, hp, l, hl, rfl⟩ := Language.mem_mul.mp hy
  have hin : (X ∪ arcs i P n ∪ arcs n L n ∪ arcs n Q j).Walk i p n :=
    .single (Or.inl (Or.inl (Or.inr ⟨rfl, hp, rfl⟩)))
  have hround : (X ∪ arcs i P n ∪ arcs n L n ∪ arcs n Q j).Walk n l n :=
    .kstar (fun u hu ↦ .single (Or.inl (Or.inr ⟨rfl, hu, rfl⟩))) hl
  exact (hin.append hround).append (.single (Or.inr ⟨rfl, hq, rfl⟩))

variable (hY : Y.Within n) (hs : s < n) (ht : t < n)

include hY hs ht

/-- A state beyond the bound of a graph that is entered from one state, left for one state and has
arcs to itself can be eliminated. -/
theorem walk_eliminate : (X ∪ arcs i P n ∪ arcs n L n ∪ (arcs n Q j ∪ Y)).Walk s w t ↔
    (X ∪ arcs i (P * L∗ * Q) j ∪ Y).Walk s w t := by
  have hshape : X ∪ arcs i P n ∪ arcs n L n ∪ (arcs n Q j ∪ Y) =
      X ∪ Y ∪ arcs i P n ∪ arcs n L n ∪ arcs n Q j := by ac_rfl
  rw [hshape, union_right_comm X _ Y]
  refine ⟨fun h ↦ (walk_of_eliminated (hX.union hY) hi hj ht h).1 hs, fun h ↦ h.bind ?_⟩
  rintro a x b (h | ⟨rfl, hx, rfl⟩)
  · exact .single (Or.inl (Or.inl (Or.inl h)))
  · exact walk_detour hx

/-- A state beyond the bound of a graph that is entered from one state and left for one state can be
eliminated. -/
theorem walk_bypass : (X ∪ arcs i P n ∪ (arcs n Q j ∪ Y)).Walk s w t ↔
    (X ∪ arcs i (P * Q) j ∪ Y).Walk s w t := by
  have h := walk_eliminate (L := 0) (P := P) (Q := Q) (w := w) hX hi hj hY hs ht
  rwa [arcs_zero, union_empty, kstar_zero, mul_one] at h

end Eliminate

end WordGraph

end LanguageTheory
