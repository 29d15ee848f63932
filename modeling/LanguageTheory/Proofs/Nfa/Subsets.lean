import LanguageTheory.Nfa.Conversions
import LanguageTheory.Proofs.Dfa.Runs
import LanguageTheory.Proofs.Nfa.Paths
import LanguageTheory.Proofs.Search.Reachability
import Mathlib.Data.List.Induction

/-!
# Sets of states as states

Running the automaton of sets of states on a word leads to the set of the states that the word
reaches, so both automata accept the same words. Each set is listed once, in increasing order, so
different states stand for different sets.
-/

namespace LanguageTheory.Nfa

variable {n : Nfa} {c : Char} {w : List Char} {subset next : List Nat} {k : Nat}

/-! ### Sets that follow each other -/

/-- A set follows when it lists the states that are read into, and there are any. -/
theorem subsetNext?_eq_some_iff : n.subsetNext? subset c = some next ↔
    next ≠ [] ∧ next = (n.read c (OrderedSet.ofList subset)).sorted := by
  unfold subsetNext?
  dsimp only
  have hempty : (n.read c (OrderedSet.ofList subset)).isEmpty = true ↔
      (n.read c (OrderedSet.ofList subset)).sorted = [] := by
    rw [OrderedSet.isEmpty_iff, List.eq_nil_iff_forall_not_mem]
    simp only [OrderedSet.mem_sorted]
  split
  · next h =>
    rw [hempty] at h
    simp [h]
  · next h =>
    rw [hempty] at h
    simp only [Option.some.injEq]
    exact ⟨fun he ↦ ⟨he ▸ h, he.symm⟩, fun he ↦ he.2.symm⟩

/-- The sets that the search meets are followed by sets that it meets. -/
theorem mem_subsets_of_next (hs : subset ∈ n.subsets.visited) (hc : c ∈ n.alphabet)
    (hnext : n.subsetNext? subset c = some next) : next ∈ n.subsets.visited := by
  rw [subsets, Agenda.mem_visited_explore_iff] at hs ⊢
  obtain ⟨first, hfirst, hchain⟩ := hs
  exact ⟨first, hfirst, hchain.tail (List.mem_filterMap.mpr ⟨c, hc, hnext⟩)⟩

/-- The first set is that of the start. -/
theorem getElem?_zero_subsets : n.subsets.visited[0]? = some n.start.sorted := by
  rw [← List.head?_eq_getElem?]
  exact Agenda.head?_visited_explore

/-! ### States and successors -/

/-- There is a state for each set. -/
theorem state?_toDfa (n : Nfa) (k : Nat) : n.toDfa.state? k = n.subsets.visited[k]?.map fun subset ↦
    { label := n.subsetLabel subset
      isFinal := subset.any n.isAccepting
      next := n.alphabet.toList.map fun c ↦
        (n.subsetNext? subset c).bind n.subsets.idxOf? } := by
  rw [Agenda.visited, Array.getElem?_toList]
  exact Array.getElem?_map

/-- There are as many states as sets. -/
theorem numStates_toDfa (n : Nfa) : n.toDfa.numStates = n.subsets.visited.length := Array.size_map

/-- A number whose set is listed is that of a state. -/
theorem lt_numStates_toDfa (hk : n.subsets.visited[k]? = some subset) :
    k < n.toDfa.numStates := by
  rw [numStates_toDfa]
  exact (List.getElem?_eq_some_iff.mp hk).1

/-- The automaton of sets of states is well formed. -/
theorem wellFormed_toDfa (n : Nfa) : n.toDfa.WellFormed := by
  refine .of_next (lt_numStates_toDfa getElem?_zero_subsets) fun k t ht ↦ ?_
  rw [state?_toDfa] at ht
  obtain ⟨subset, _, rfl⟩ := Option.map_eq_some_iff.mp ht
  refine ⟨_, rfl, fun c j hj ↦ ?_⟩
  obtain ⟨next, _, hj⟩ := Option.bind_eq_some_iff.mp hj
  exact lt_numStates_toDfa (Agenda.idxOf?_eq_some_iff.mp hj)

/-- The successor of a set is the set that follows it. -/
theorem next?_toDfa (hk : n.subsets.visited[k]? = some subset) (hc : c ∈ n.alphabet) :
    n.toDfa.next? k c = (n.subsetNext? subset c).bind n.subsets.idxOf? := by
  have hs := state?_toDfa n k
  rw [hk, Option.map_some] at hs
  exact Dfa.next?_of_next_eq (d := n.toDfa) hs rfl hc

/-- A set is labelled by the labels of its elements. -/
theorem label_toDfa (hk : n.subsets.visited[k]? = some subset) :
    n.toDfa.label k = n.subsetLabel subset := by
  have hs := state?_toDfa n k
  rw [hk, Option.map_some] at hs
  exact Dfa.label_of_state? hs

/-- A set is final when it has an accepting element. -/
theorem isFinal_toDfa (hk : n.subsets.visited[k]? = some subset) :
    n.toDfa.isFinal k = true ↔ ∃ j ∈ subset, j ∈ n.accepting := by
  have hs := state?_toDfa n k
  rw [hk, Option.map_some] at hs
  rw [Dfa.isFinal_of_state? hs, List.any_eq_true]
  simp only [isAccepting, OrderedSet.contains_iff]

/-! ### Runs -/

/-- A run on a word ends in the set of the states that the word reaches. -/
theorem exists_of_run_toDfa (h : n.toDfa.run n.toDfa.initial w = some k) :
    ∃ subset, n.subsets.visited[k]? = some subset ∧ ∀ j, j ∈ subset ↔ n.Reaches w j := by
  induction w using List.reverseRecOn generalizing k with
  | nil =>
    cases h
    refine ⟨_, getElem?_zero_subsets, fun j ↦ ?_⟩
    rw [OrderedSet.mem_sorted, mem_start_iff]
  | append_singleton u c ih =>
    rw [Dfa.run_append] at h
    obtain ⟨m, hm, h⟩ := Option.bind_eq_some_iff.mp h
    rw [Dfa.run_singleton] at h
    obtain ⟨subset, hs, hmem⟩ := ih hm
    rw [next?_toDfa hs (Dfa.lt_and_mem_of_next? h).2] at h
    obtain ⟨next, hnext, hk⟩ := Option.bind_eq_some_iff.mp h
    refine ⟨next, Agenda.idxOf?_eq_some_iff.mp hk, fun j ↦ ?_⟩
    rw [(subsetNext?_eq_some_iff.mp hnext).2, OrderedSet.mem_sorted]
    exact mem_read_iff fun i ↦ OrderedSet.mem_ofList.trans (hmem i)

/-- A run on a word over the alphabet that reaches a state is not stuck. -/
theorem exists_run_toDfa (hw : ∀ c ∈ w, c ∈ n.alphabet) (h : ∃ j, n.Reaches w j) :
    ∃ k, n.toDfa.run n.toDfa.initial w = some k := by
  induction w using List.reverseRecOn with
  | nil => exact ⟨_, rfl⟩
  | append_singleton u c ih =>
    obtain ⟨j, hj⟩ := h
    have hc : c ∈ n.alphabet := hw c (by simp)
    obtain ⟨m, hm⟩ := ih (fun a ha ↦ hw a (List.mem_append_left _ ha)) hj.of_append
    obtain ⟨subset, hs, hmem⟩ := exists_of_run_toDfa hm
    have hread := mem_read_iff (j := j) (c := c) fun i ↦
      OrderedSet.mem_ofList.trans (hmem i)
    have hne : (n.read c (OrderedSet.ofList subset)).sorted ≠ [] :=
      List.ne_nil_of_mem (OrderedSet.mem_sorted.mpr (hread.mpr hj))
    have hnext := subsetNext?_eq_some_iff.mpr ⟨hne, rfl⟩
    obtain ⟨k, hk⟩ := List.mem_iff_getElem?.mp
      (mem_subsets_of_next (List.mem_of_getElem? hs) hc hnext)
    refine ⟨k, Dfa.run_concat hm ?_⟩
    rw [next?_toDfa hs hc, hnext, Option.bind_some, Agenda.idxOf?_eq_some_iff.mpr hk]

/-- The automaton of sets of states accepts the same words. -/
theorem accepts_toDfa (n : Nfa) (w : List Char) : n.toDfa.accepts w = n.accepts w := by
  rw [Bool.eq_iff_iff, accepts_iff, Dfa.accepts]
  cases h : n.toDfa.run n.toDfa.initial w with
  | none =>
    have hstuck : ¬ ((∀ c ∈ w, c ∈ n.alphabet) ∧ ∃ j ∈ n.accepting, n.Reaches w j) := by
      rintro ⟨hw, j, _, hj⟩
      obtain ⟨k, hk⟩ := exists_run_toDfa hw ⟨j, hj⟩
      rw [h] at hk
      cases hk
    simp [hstuck]
  | some k =>
    obtain ⟨subset, hs, hmem⟩ := exists_of_run_toDfa h
    have hw : ∀ c ∈ w, c ∈ n.alphabet := Dfa.mem_alphabet_of_run h
    rw [Option.elim_some, isFinal_toDfa hs, and_iff_right hw]
    simp only [hmem, and_comm]

/-! ### What the states stand for -/

/-- The set that a state stands for, as an increasing list. -/
def members (n : Nfa) (k : Nat) : List Nat := n.subsets.visited[k]?.getD []

/-- Each state stands for the set with its number. -/
theorem getElem?_subsets (hk : k < n.toDfa.numStates) :
    n.subsets.visited[k]? = some (n.members k) := by
  rw [numStates_toDfa] at hk
  rw [members, List.getElem?_eq_getElem hk, Option.getD_some]

/-- The sets that the search meets are those that some word over the alphabet reaches. -/
theorem exists_run_of_mem_subsets (hs : subset ∈ n.subsets.visited) :
    ∃ w k, n.toDfa.run n.toDfa.initial w = some k ∧ n.subsets.visited[k]? = some subset := by
  have hchain := hs
  rw [subsets, Agenda.mem_visited_explore_iff] at hchain
  obtain ⟨first, hfirst, hchain⟩ := hchain
  rw [List.mem_singleton] at hfirst
  subst hfirst
  clear hs
  induction hchain with
  | refl => exact ⟨[], 0, rfl, getElem?_zero_subsets⟩
  | tail _ hnext ih =>
    obtain ⟨w, k, hw, hk⟩ := ih
    obtain ⟨c, hc, hnext⟩ := List.mem_filterMap.mp hnext
    obtain ⟨l, hl⟩ := List.mem_iff_getElem?.mp
      (mem_subsets_of_next (List.mem_of_getElem? hk) hc hnext)
    refine ⟨w ++ [c], l, Dfa.run_concat hw ?_, hl⟩
    rw [next?_toDfa hk hc, hnext, Option.bind_some, Agenda.idxOf?_eq_some_iff.mpr hl]

/-- A set that the search meets is that of the start or follows another one. -/
theorem mem_subsets_cases (hs : subset ∈ n.subsets.visited) :
    subset = n.start.sorted ∨ ∃ prior c, n.subsetNext? prior c = some subset := by
  rw [subsets, Agenda.mem_visited_explore_iff] at hs
  obtain ⟨first, hfirst, hchain⟩ := hs
  cases hchain with
  | refl => exact .inl (List.mem_singleton.mp hfirst)
  | tail _ hnext =>
    obtain ⟨c, _, hnext⟩ := List.mem_filterMap.mp hnext
    exact .inr ⟨_, c, hnext⟩

/-- The sets that the search meets are listed in order and without repetition. -/
theorem exists_sorted_of_mem_subsets (hs : subset ∈ n.subsets.visited) :
    ∃ s : OrderedSet Nat, subset = s.sorted := by
  rcases mem_subsets_cases hs with hstart | ⟨prior, c, hnext⟩
  · exact ⟨n.start, hstart⟩
  · exact ⟨_, (subsetNext?_eq_some_iff.mp hnext).2⟩

/-- The search meets no empty set, unless there is no initial state. -/
theorem ne_nil_of_mem_subsets (hinitial : ∃ i, i ∈ n.initial)
    (hs : subset ∈ n.subsets.visited) : subset ≠ [] := by
  rcases mem_subsets_cases hs with hstart | ⟨prior, c, hnext⟩
  · obtain ⟨i, hi⟩ := hinitial
    have hmem : i ∈ n.start := mem_start_iff.mpr ⟨i, hi, .refl i⟩
    rw [hstart]
    exact List.ne_nil_of_mem (OrderedSet.mem_sorted.mpr hmem)
  · exact (subsetNext?_eq_some_iff.mp hnext).1

/-- A run ends in the state that stands for the states that the word reaches. -/
theorem mem_members_of_run {j : Nat} (h : n.toDfa.run n.toDfa.initial w = some k) :
    j ∈ n.members k ↔ n.Reaches w j := by
  obtain ⟨subset, hs, hmem⟩ := exists_of_run_toDfa h
  rw [members, hs]
  exact hmem j

/-- A run is stuck when the word leaves the alphabet or reaches nothing. -/
theorem run_toDfa_eq_none_iff (hinitial : ∃ i, i ∈ n.initial) :
    n.toDfa.run n.toDfa.initial w = none ↔
      (∃ c ∈ w, c ∉ n.alphabet) ∨ ∀ j, ¬ n.Reaches w j := by
  constructor
  · intro h
    refine or_iff_not_imp_left.mpr fun hw j hj ↦ ?_
    have hw' : ∀ c ∈ w, c ∈ n.alphabet := fun c hc ↦
      Decidable.byContradiction fun hnot ↦ hw ⟨c, hc, hnot⟩
    obtain ⟨k, hk⟩ := exists_run_toDfa hw' ⟨j, hj⟩
    rw [h] at hk
    cases hk
  · intro h
    cases hk : n.toDfa.run n.toDfa.initial w with
    | none => rfl
    | some k =>
      obtain ⟨subset, hs, hmem⟩ := exists_of_run_toDfa hk
      rcases h with ⟨c, hc, hnot⟩ | hnone
      · exact absurd (Dfa.mem_alphabet_of_run hk c hc) hnot
      · obtain ⟨j, hj⟩ := List.exists_mem_of_ne_nil subset
          (ne_nil_of_mem_subsets hinitial (List.mem_of_getElem? hs))
        exact absurd ((hmem j).mp hj) (hnone j)

/-- States that stand for the same set are the same. -/
theorem eq_of_members_eq {l : Nat} (hk : k < n.toDfa.numStates) (hl : l < n.toDfa.numStates)
    (h : ∀ j, j ∈ n.members k ↔ j ∈ n.members l) : k = l := by
  have hk' := getElem?_subsets hk
  have hl' := getElem?_subsets hl
  obtain ⟨s, hs⟩ := exists_sorted_of_mem_subsets (List.mem_of_getElem? hk')
  obtain ⟨t, ht⟩ := exists_sorted_of_mem_subsets (List.mem_of_getElem? hl')
  have hst : s.sorted = t.sorted := by
    refine OrderedSet.sorted_congr fun j ↦ ?_
    rw [← OrderedSet.mem_sorted, ← hs, h, ht, OrderedSet.mem_sorted]
  rw [hs, hst, ← ht, ← Agenda.idxOf?_eq_some_iff] at hk'
  rw [← Agenda.idxOf?_eq_some_iff, hk'] at hl'
  exact Option.some.inj hl'

/-- The labels of all elements of all sets exist when all states have labels. -/
theorem IsLabelled.toDfa?_eq_some (hn : n.IsLabelled) : n.toDfa? = some n.toDfa := by
  unfold toDfa?
  rw [if_pos]
  simp only [List.all_eq_true, decide_eq_true_eq]
  intro subset hs j hj
  obtain ⟨w, k, hw, hk⟩ := exists_run_of_mem_subsets hs
  obtain ⟨subset', hs', hmem⟩ := exists_of_run_toDfa hw
  rw [hk] at hs'
  cases hs'
  exact hn.lt_of_reaches ((hmem j).mp hj)

/-- The automaton of sets of states is undefined when a word reaches a state without a label. -/
theorem toDfa?_eq_none {j : Nat} (hw : ∀ c ∈ w, c ∈ n.alphabet) (h : n.Reaches w j)
    (hj : n.numStates ≤ j) : n.toDfa? = none := by
  obtain ⟨k, hk⟩ := exists_run_toDfa hw ⟨j, h⟩
  obtain ⟨subset, hs, hmem⟩ := exists_of_run_toDfa hk
  refine if_neg fun hall ↦ ?_
  have hsubset := List.all_eq_true.mp hall subset (List.mem_of_getElem? hs)
  have hlt := List.all_eq_true.mp hsubset j ((hmem j).mpr h)
  exact absurd (of_decide_eq_true hlt) (Nat.not_lt.mpr hj)

end LanguageTheory.Nfa
