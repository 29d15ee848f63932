import LanguageTheory.Nfa.Path
import LanguageTheory.Proofs.Collections.Table
import Mathlib.Logic.Basic

/-!
# Sets of states and paths

Following all runs at once finds the states to which paths with the word lead, so an automaton
accepts the words over its alphabet that it spells.
-/

namespace LanguageTheory.Nfa

variable {n : Nfa} {i j k : Nat} {c : Char} {u v w : List Char} {states : OrderedSet Nat}

/-! ### Paths -/

/-- The transitions are what the transition relation lists. -/
theorem mem_transitions_iff_lists {s : Symbol} :
    (i, s, j) ∈ n.transitions ↔ n.delta.Lists (i, s) j := mem_transitions

/-- A path with a word has a state where the first part of the word has been read. -/
theorem Path.exists_of_append (h : n.Path i (u ++ v) k) :
    ∃ j, n.Path i u j ∧ n.Path j v k := by
  generalize hw : u ++ v = w at h
  induction h generalizing u with
  | refl i =>
    obtain ⟨rfl, rfl⟩ := List.append_eq_nil_iff.mp hw
    exact ⟨i, .refl i, .refl i⟩
  | skip h _ ih =>
    obtain ⟨j, hu, hv⟩ := ih hw
    exact ⟨j, .skip h hu, hv⟩
  | @read i l k c w h hpath ih =>
    rcases List.append_eq_cons_iff.mp hw with ⟨rfl, rfl⟩ | ⟨u, rfl, rfl⟩
    · exact ⟨i, .refl i, .read h hpath⟩
    · obtain ⟨j, hu, hv⟩ := ih rfl
      exact ⟨j, .read h hu, hv⟩

/-- A path with one character has one transition that reads it. -/
theorem Path.exists_of_singleton (h : n.Path i [c] k) : ∃ l m,
    n.Path i [] l ∧ (l, Symbol.char c, m) ∈ n.transitions ∧ n.Path m [] k := by
  generalize hw : [c] = w at h
  induction h with
  | refl => cases hw
  | skip h _ ih =>
    obtain ⟨l, m, hl, hc, hm⟩ := ih hw
    exact ⟨l, m, .skip h hl, hc, hm⟩
  | @read i j k c w h hpath _ =>
    cases hw
    exact ⟨i, j, .refl i, h, hpath⟩

/-- Every transition that reads a character reads a declared one. -/
def ReadsDeclared (n : Nfa) : Prop :=
  ∀ i c j, (i, Symbol.char c, j) ∈ n.transitions → c ∈ n.alphabet

instance (n : Nfa) : Decidable n.ReadsDeclared :=
  decidable_of_iff (∀ move ∈ n.transitions,
      move.2.1.isEpsilon = true ∨ move.2.1.toChar ∈ n.alphabet) <| by
    constructor
    · intro h i c j hmove
      exact (h _ hmove).resolve_left Bool.false_ne_true
    · rintro h ⟨i, s, j⟩ hmove
      cases s with
      | epsilon => exact .inl rfl
      | char c => exact .inr (h i c j hmove)

/-- When every transition that reads a character reads a declared one, so does every path. -/
theorem Path.mem_alphabet (hn : n.ReadsDeclared) (h : n.Path i w j) : ∀ c ∈ w, c ∈ n.alphabet := by
  induction h with
  | refl => simp
  | skip _ _ ih => exact ih
  | read h _ ih =>
    intro a ha
    rcases List.mem_cons.mp ha with rfl | ha
    · exact hn _ _ _ h
    · exact ih a ha

/-! ### Reached states -/

/-- A path with a word leads from an initial state to the given state. -/
def Reaches (n : Nfa) (w : List Char) (j : Nat) : Prop := ∃ i ∈ n.initial, n.Path i w j

/-- A closure has the states to which paths without characters lead. -/
theorem mem_epsilonClosure_iff : j ∈ n.epsilonClosure states ↔ ∃ i ∈ states, n.Path i [] j := by
  constructor
  · revert j
    apply OrderedSet.closure_induction
    · intro j hj
      exact ⟨j, hj, .refl j⟩
    · intro known hknown j hj
      obtain ⟨k, hk, hkj⟩ := mem_step.mp hj
      obtain ⟨i, hi, hik⟩ := hknown k hk
      exact ⟨i, hi, hik.append (.skip hkj (.refl j))⟩
  · rintro ⟨i, hi, hij⟩
    have hmem : i ∈ n.epsilonClosure states := OrderedSet.subset_closure _ _ _ i hi
    clear hi
    generalize hw : ([] : List Char) = w at hij
    induction hij with
    | refl => exact hmem
    | @skip i k _ _ h _ ih =>
      apply ih _ hw
      exact OrderedSet.expand_closure_subset _ (n.bounded_step .epsilon) _ k
        (mem_step.mpr ⟨i, hmem, h⟩)
    | read => cases hw

/-- The states of the start are those that the empty word reaches. -/
theorem mem_start_iff : j ∈ n.start ↔ n.Reaches [] j := mem_epsilonClosure_iff

/-- Reading a character leads from the states at the end of paths with a word to those at the end of
paths with the longer word. -/
theorem mem_read_iff_path {sources : OrderedSet Nat}
    (hstates : ∀ j, j ∈ states ↔ ∃ i ∈ sources, n.Path i u j) :
    j ∈ n.read c states ↔ ∃ i ∈ sources, n.Path i (u ++ [c]) j := by
  rw [read, mem_epsilonClosure_iff]
  constructor
  · rintro ⟨m, hm, hmj⟩
    obtain ⟨l, hl, hlm⟩ := mem_step.mp hm
    obtain ⟨i, hi, hil⟩ := (hstates l).mp hl
    exact ⟨i, hi, hil.append (.read hlm hmj)⟩
  · rintro ⟨i, hi, hij⟩
    obtain ⟨k, hik, hkj⟩ := hij.exists_of_append
    obtain ⟨l, m, hkl, hlm, hmj⟩ := hkj.exists_of_singleton
    have hl : n.Path i (u ++ []) l := hik.append hkl
    rw [List.append_nil] at hl
    exact ⟨m, mem_step.mpr ⟨l, (hstates l).mpr ⟨i, hi, hl⟩, hlm⟩, hmj⟩

/-- Reading a character leads from the states that a word reaches to those that the longer word
reaches. -/
theorem mem_read_iff (hstates : ∀ j, j ∈ states ↔ n.Reaches u j) :
    j ∈ n.read c states ↔ n.Reaches (u ++ [c]) j := mem_read_iff_path hstates

/-- A word that reaches a state has beginnings that reach states. -/
theorem Reaches.of_append (h : n.Reaches (u ++ v) j) : ∃ k, n.Reaches u k := by
  obtain ⟨i, hi, hij⟩ := h
  obtain ⟨k, hik, _⟩ := hij.exists_of_append
  exact ⟨k, i, hi, hik⟩

/-! ### Labelled states -/

/-- All states have labels when initial and accepting states, sources and targets have. -/
theorem isLabelled_iff : n.IsLabelled ↔
    (∀ i ∈ n.initial, i < n.numStates) ∧ (∀ i ∈ n.accepting, i < n.numStates) ∧
      ∀ i s targets, n.targets? i s = some targets →
        i < n.numStates ∧ ∀ j ∈ targets, j < n.numStates := by
  rw [IsLabelled, usedStates, List.forall_mem_append, List.forall_mem_append, and_assoc]
  refine and_congr_right fun _ ↦ and_congr_right fun _ ↦ ?_
  constructor
  · intro h i s targets ht
    have hmem {k : Nat} (hk : k ∈ i :: targets.toList) : k < n.numStates :=
      h k (List.mem_flatMap.mpr ⟨_, Table.get?_eq_some_iff.mp ht, hk⟩)
    exact ⟨hmem List.mem_cons_self, fun j hj ↦ hmem (List.mem_cons_of_mem _ hj)⟩
  · intro h k hk
    obtain ⟨⟨⟨i, s⟩, targets⟩, he, hk⟩ := List.mem_flatMap.mp hk
    obtain ⟨hi, ht⟩ := h i s targets (Table.get?_eq_some_iff.mpr he)
    rcases List.mem_cons.mp hk with rfl | hk
    · exact hi
    · exact ht k hk

/-- All states have labels when initial and accepting states and the ends of transitions have, and
no state has an empty set of targets. -/
theorem isLabelled_of_transitions (hinitial : ∀ i ∈ n.initial, i < n.numStates)
    (haccepting : ∀ i ∈ n.accepting, i < n.numStates) (hfilled : n.delta.Filled)
    (hmoves : ∀ i s j, (i, s, j) ∈ n.transitions → i < n.numStates ∧ j < n.numStates) :
    n.IsLabelled := by
  refine isLabelled_iff.mpr ⟨hinitial, haccepting, fun i s targets ht ↦ ?_⟩
  have hmem {j : Nat} (hj : j ∈ targets) : i < n.numStates ∧ j < n.numStates :=
    hmoves i s j (mem_transitions.mpr ⟨targets, ht, hj⟩)
  obtain ⟨j, hj⟩ := hfilled (i, s) targets ht
  exact ⟨(hmem hj).1, fun k hk ↦ (hmem hk).2⟩

/-- The ends of a transition have labels. -/
theorem IsLabelled.lt_of_mem_transitions (hn : n.IsLabelled) {s : Symbol}
    (h : (i, s, j) ∈ n.transitions) : i < n.numStates ∧ j < n.numStates := by
  obtain ⟨targets, ht, hj⟩ := mem_transitions.mp h
  obtain ⟨hi, htargets⟩ := (isLabelled_iff.mp hn).2.2 i s targets ht
  exact ⟨hi, htargets j hj⟩

/-- Paths lead from labelled states to labelled states. -/
theorem IsLabelled.lt_of_path (hn : n.IsLabelled) (h : n.Path i w j) (hi : i < n.numStates) :
    j < n.numStates := by
  induction h with
  | refl => exact hi
  | skip h _ ih => exact ih (hn.lt_of_mem_transitions h).2
  | read h _ ih => exact ih (hn.lt_of_mem_transitions h).2

/-- Words reach labelled states only. -/
theorem IsLabelled.lt_of_reaches (hn : n.IsLabelled) (h : n.Reaches w j) : j < n.numStates := by
  obtain ⟨i, hi, hij⟩ := h
  exact hn.lt_of_path hij ((isLabelled_iff.mp hn).1 i hi)

/-! ### Accepted words -/

/-- An accepting state is among the given ones when the sets have an element in common. -/
theorem acceptsFrom_nil_iff :
    n.acceptsFrom states [] = true ↔ ∃ j ∈ states, j ∈ n.accepting := by
  rw [acceptsFrom, Bool.not_eq_true', decide_eq_false_iff_not, OrderedSet.Disjoint]
  simp only [not_forall, not_not, exists_prop]
  exact Iff.rfl

/-- A word is accepted after another one when the two together lead to an accepting state. -/
theorem acceptsFrom_iff (hstates : ∀ j, j ∈ states ↔ n.Reaches u j) :
    n.acceptsFrom states w = true ↔
      (∀ c ∈ w, c ∈ n.alphabet) ∧ ∃ j ∈ n.accepting, n.Reaches (u ++ w) j := by
  induction w generalizing u states with
  | nil =>
    rw [acceptsFrom_nil_iff, List.append_nil]
    simp only [hstates, and_comm, List.not_mem_nil, false_implies, implies_true, true_and]
  | cons c w ih =>
    have hread := fun j ↦ mem_read_iff (j := j) (c := c) hstates
    have hword : u ++ c :: w = u ++ [c] ++ w := by simp
    rw [acceptsFrom, List.forall_mem_cons, hword]
    split
    · next hc =>
      simp only [hc, true_and]
      split
      · next hempty =>
        have hnone : ¬ ∃ j ∈ n.accepting, n.Reaches (u ++ [c] ++ w) j := by
          rintro ⟨j, _, hj⟩
          obtain ⟨k, hk⟩ := hj.of_append
          exact OrderedSet.isEmpty_iff.mp hempty k ((hread k).mpr hk)
        simp only [hnone, and_false, Bool.false_eq_true]
      · exact ih hread
    · next hc => simp only [hc, false_and, Bool.false_eq_true]

/-- The words over the alphabet that lead to an accepting state are accepted. -/
theorem accepts_iff : n.accepts w = true ↔
    (∀ c ∈ w, c ∈ n.alphabet) ∧ ∃ j ∈ n.accepting, n.Reaches w j :=
  acceptsFrom_iff fun _ ↦ mem_start_iff

/-- A word is spelled when it leads to an accepting state. -/
theorem spells_iff : n.Spells w ↔ ∃ j ∈ n.accepting, n.Reaches w j := by
  constructor
  · rintro ⟨i, hi, j, hj, hij⟩
    exact ⟨j, hj, i, hi, hij⟩
  · rintro ⟨j, hj, i, hi, hij⟩
    exact ⟨i, hi, j, hj, hij⟩

/-- When every transition that reads a character reads a declared one, the words that are spelled
are accepted. -/
theorem accepts_iff_spells (hn : n.ReadsDeclared) : n.accepts w = true ↔ n.Spells w := by
  rw [accepts_iff, spells_iff, and_iff_right_iff_imp]
  rintro ⟨j, _, i, _, hij⟩
  exact hij.mem_alphabet hn

/-! ### An automaton with a loop -/

/-- Two states that reach each other without reading anything and a third one; the first and the
third are initial, and the second is accepting. -/
def loops : Nfa where
  alphabet := .ofSet (.ofList ['a', 'b'])
  labels := .ofList ["first", "second", "third"]
  delta := .ofList [((0, .epsilon), .ofList [1]), ((1, .epsilon), .ofList [0]),
    ((1, .char 'a'), .ofList [2]), ((2, .char 'b'), .ofList [0, 2])]
  initial := .ofList [0, 2]
  accepting := .ofList [1]

end LanguageTheory.Nfa
