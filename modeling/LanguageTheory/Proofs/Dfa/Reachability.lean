import LanguageTheory.Dfa.Reachability
import LanguageTheory.Proofs.Dfa.Runs
import LanguageTheory.Proofs.Search.Reachability

/-!
# Reached states and restrictions

The search of an automaton finds the states to which its words lead. Restricting an automaton to
states that its runs never leave numbers these states anew and keeps what they accept.
-/

namespace LanguageTheory.Dfa

variable {d : Dfa} {i j : Nat} {c : Char}

/-! ### Reached states -/

/-- The successors of a state are those on the characters of the alphabet. -/
theorem WellFormed.successors_eq (hd : d.WellFormed) (i : Nat) :
    d.successors i = d.alphabet.toList.filterMap (d.next? i) := by
  unfold successors edges
  split
  · next hs =>
    have hi : d.numStates ≤ i := Array.getElem?_eq_none_iff.mp hs
    have hnone : d.next? i = fun _ ↦ none := funext fun c ↦ next?_of_le hi
    rw [hnone]
    simp
  · next s hs =>
    have hzip : d.alphabet.toList.zip (d.alphabet.toList.map (d.next? i)) =
        d.alphabet.toList.map fun c ↦ (c, d.next? i c) := by
      rw [← List.zip_map', List.map_id']
    rw [hd.next_eq hs, hzip, List.filterMap_map, List.map_filterMap]
    refine List.filterMap_congr fun c _ ↦ ?_
    simp only [Function.comp_apply]
    cases d.next? i c <;> rfl

/-- A successor is one on some character. -/
theorem mem_successors_iff : j ∈ d.successors i ↔ ∃ c, d.next? i c = some j := by
  rw [successors, List.mem_map]
  constructor
  · rintro ⟨⟨c, k⟩, he, rfl⟩
    exact ⟨c, mem_edges_iff.mp he⟩
  · rintro ⟨c, hc⟩
    exact ⟨(c, j), mem_edges_iff.mpr hc, rfl⟩

/-- Chains of successors are runs. -/
theorem chain_iff_run :
    Relation.ReflTransGen (fun a b ↦ b ∈ d.successors a) i j ↔ ∃ w, d.run i w = some j := by
  constructor
  · intro h
    induction h with
    | refl => exact ⟨[], rfl⟩
    | tail _ hbc ih =>
      obtain ⟨w, hw⟩ := ih
      obtain ⟨c, hc⟩ := mem_successors_iff.mp hbc
      exact ⟨w ++ [c], run_concat hw hc⟩
  · rintro ⟨w, hw⟩
    induction w generalizing i with
    | nil =>
      cases hw
      exact .refl
    | cons c w ih =>
      rw [run_cons] at hw
      obtain ⟨k, hk, hw⟩ := Option.bind_eq_some_iff.mp hw
      exact .head (mem_successors_iff.mpr ⟨c, hk⟩) (ih hw)

/-- The search finds the states to which words lead. -/
theorem mem_reachable_iff : i ∈ d.reachable ↔ ∃ w, d.run d.initial w = some i := by
  rw [reachable, Agenda.mem_visited_explore_iff, ← chain_iff_run]
  simp only [List.mem_singleton, exists_eq_left]

/-- The search lists every state once. -/
theorem nodup_reachable (d : Dfa) : d.reachable.Nodup := Agenda.nodup_visited _

/-- An automaton is accessible when words lead to all its states. -/
def IsAccessible (d : Dfa) : Prop := ∀ i < d.numStates, ∃ w, d.run d.initial w = some i

/-! ### Restrictions -/

/-- Distinct states, with the initial one among them, that runs do not leave. -/
structure Kept (d : Dfa) (keep : List Nat) : Prop where
  nodup : keep.Nodup
  lt : ∀ i ∈ keep, i < d.numStates
  initial_mem : d.initial ∈ keep
  next_mem : ∀ i ∈ keep, ∀ c j, d.next? i c = some j → j ∈ keep

/-- The states to which words lead are kept. -/
theorem WellFormed.kept_reachable (hd : d.WellFormed) : d.Kept d.reachable := by
  constructor
  · exact d.nodup_reachable
  · intro i hi
    obtain ⟨w, hw⟩ := mem_reachable_iff.mp hi
    exact hd.lt_of_run hd.initial_lt hw
  · exact mem_reachable_iff.mpr ⟨[], rfl⟩
  · intro i hi c j hj
    obtain ⟨w, hw⟩ := mem_reachable_iff.mp hi
    exact mem_reachable_iff.mpr ⟨w ++ [c], run_concat hw hj⟩

variable {keep : List Nat} {relabel : Nat → String → String} {k : Nat}

/-- States may be kept in any order. -/
theorem Kept.perm (h : d.Kept keep) {keep' : List Nat} (hperm : keep.Perm keep') :
    d.Kept keep' := by
  have hmem : ∀ i, i ∈ keep' ↔ i ∈ keep := fun i ↦ hperm.mem_iff.symm
  constructor
  · exact hperm.nodup_iff.mp h.nodup
  · exact fun i hi ↦ h.lt i ((hmem i).mp hi)
  · exact (hmem _).mpr h.initial_mem
  · exact fun i hi c j hj ↦ (hmem j).mpr (h.next_mem i ((hmem i).mp hi) c j hj)

/-- A restriction keeps the alphabet. -/
@[simp]
theorem alphabet_restrict (d : Dfa) (keep : List Nat) (relabel : Nat → String → String) :
    (d.restrict keep relabel).alphabet = d.alphabet := rfl

/-- A restriction has as many states as are kept. -/
@[simp]
theorem numStates_restrict (d : Dfa) (keep : List Nat) (relabel : Nat → String → String) :
    (d.restrict keep relabel).numStates = keep.length := by
  simp [restrict, numStates]

/-- The states of a restriction are the kept ones, in their order. -/
theorem state?_restrict {s : State} (hk : keep[k]? = some i) (hs : d.state? i = some s) :
    (d.restrict keep relabel).state? k = some
      { s with label := relabel k s.label, next := s.next.map fun t ↦ t.bind keep.idxOf? } := by
  simp [restrict, state?, hk] at hs ⊢
  simp [hs]

/-- Every state of a restriction is a kept state. -/
theorem exists_kept_of_lt (hk : k < (d.restrict keep relabel).numStates) :
    ∃ i ∈ keep, keep[k]? = some i := by
  rw [numStates_restrict] at hk
  exact ⟨keep[k], List.getElem_mem hk, List.getElem?_eq_getElem hk⟩

/-- A kept state has one number in a restriction. -/
theorem rightUnique_getElem? (hnodup : keep.Nodup) :
    Relator.RightUnique fun (i k : Nat) ↦ keep[k]? = some i := by
  intro i k m hk hm
  rw [← idxOf?_eq_some_iff_of_nodup hnodup] at hk hm
  exact Option.some.inj (hk.symm.trans hm)

namespace Kept

variable (h : d.Kept keep)

include h

/-- A kept state is a state. -/
theorem exists_state? (hk : keep[k]? = some i) : ∃ s, d.state? i = some s :=
  exists_state?_iff.mpr (h.lt i (List.mem_of_getElem? hk))

/-- A state of a restriction has the label that it is given. -/
theorem label_restrict (hk : keep[k]? = some i) :
    (d.restrict keep relabel).label k = relabel k (d.label i) := by
  obtain ⟨s, hs⟩ := h.exists_state? hk
  rw [label_of_state? (state?_restrict hk hs), label_of_state? hs]

/-- The kept states that are final are final in a restriction. -/
theorem isFinal_restrict (hk : keep[k]? = some i) :
    (d.restrict keep relabel).isFinal k = d.isFinal i := by
  obtain ⟨s, hs⟩ := h.exists_state? hk
  rw [isFinal_of_state? (state?_restrict hk hs), isFinal_of_state? hs]

/-- The initial state of a restriction is the old one. -/
theorem getElem?_initial_restrict : keep[(d.restrict keep relabel).initial]? = some d.initial := by
  obtain ⟨k, hk⟩ := List.mem_iff_getElem?.mp h.initial_mem
  have hplace := (idxOf?_eq_some_iff_of_nodup h.nodup).mpr hk
  rw [restrict, hplace]
  exact hk

/-- The successors in a restriction are the old ones. -/
theorem next?_restrict (hd : d.WellFormed) (hk : keep[k]? = some i) (c : Char) :
    (d.restrict keep relabel).next? k c = (d.next? i c).bind keep.idxOf? := by
  obtain ⟨s, hs⟩ := h.exists_state? hk
  by_cases hc : c ∈ d.alphabet
  · exact hd.next?_of_next_map (alphabet_restrict d keep relabel) hs (state?_restrict hk hs) rfl hc
  · rw [next?_of_notMem hc, next?_of_notMem (by rwa [alphabet_restrict])]
    rfl

/-- A kept state behaves as before. -/
theorem bisimulation_restrict (hd : d.WellFormed) :
    Bisimulation (fun i k ↦ keep[k]? = some i) d (d.restrict keep relabel) := by
  constructor
  · intro i k hk
    exact (h.isFinal_restrict hk).symm
  · intro i k hk c
    rw [h.next?_restrict hd hk]
    cases hj : d.next? i c with
    | none => exact .none
    | some j =>
      obtain ⟨m, hm⟩ := List.mem_iff_getElem?.mp (h.next_mem i (List.mem_of_getElem? hk) c j hj)
      rw [Option.bind_some, (idxOf?_eq_some_iff_of_nodup h.nodup).mpr hm]
      exact .some hm

/-- A restriction to kept states keeps the words. -/
theorem accepts_restrict (hd : d.WellFormed) (w : List Char) :
    (d.restrict keep relabel).accepts w = d.accepts w :=
  ((h.bisimulation_restrict hd).accepts_eq h.getElem?_initial_restrict w).symm

/-- A restriction of a well-formed automaton is well formed. -/
theorem wellFormed_restrict (hd : d.WellFormed) : (d.restrict keep relabel).WellFormed := by
  have hlt {i k : Nat} (hk : keep[k]? = some i) : k < (d.restrict keep relabel).numStates := by
    rw [numStates_restrict]
    exact (List.getElem?_eq_some_iff.mp hk).1
  refine hd.of_next_map rfl (hlt h.getElem?_initial_restrict) fun k t ht ↦ ?_
  obtain ⟨i, _, hk⟩ := exists_kept_of_lt (exists_state?_iff.mp ⟨t, ht⟩)
  obtain ⟨s, hs⟩ := h.exists_state? hk
  rw [state?_restrict hk hs] at ht
  cases ht
  refine ⟨i, s, _, hs, rfl, fun c m hm ↦ ?_⟩
  obtain ⟨j, _, hm⟩ := Option.bind_eq_some_iff.mp hm
  exact hlt ((idxOf?_eq_some_iff_of_nodup h.nodup).mp hm)

/-- A restriction of a complete automaton is complete. -/
theorem isComplete_restrict (hd : d.WellFormed) (hcomplete : d.isComplete = true) :
    (d.restrict keep relabel).isComplete = true := by
  refine (h.bisimulation_restrict hd).isComplete hd (h.wellFormed_restrict hd) (fun _ hc ↦ hc)
    (fun k hk ↦ ?_) hcomplete
  obtain ⟨i, hi, hk⟩ := exists_kept_of_lt hk
  exact ⟨i, h.lt i hi, hk⟩

/-- A restriction to states to which words lead is accessible. -/
theorem isAccessible_restrict (hd : d.WellFormed)
    (hkeep : ∀ i ∈ keep, ∃ w, d.run d.initial w = some i) :
    (d.restrict keep relabel).IsAccessible := by
  intro k hk
  obtain ⟨i, hi, hk⟩ := exists_kept_of_lt hk
  obtain ⟨w, hw⟩ := hkeep i hi
  have hbisim : Bisimulation _ d (d.restrict keep relabel) := h.bisimulation_restrict hd
  have hinitial : keep[(d.restrict keep relabel).initial]? = some d.initial :=
    h.getElem?_initial_restrict
  exact ⟨w, hbisim.run_eq_some (rightUnique_getElem? h.nodup) hinitial hk hw⟩

end Kept

/-! ### The reachable part -/

/-- The states to which words lead are kept, in the order of their numbers. -/
theorem WellFormed.kept_mergeSort_reachable (hd : d.WellFormed) :
    d.Kept (d.reachable.mergeSort fun i j ↦ decide (i ≤ j)) :=
  hd.kept_reachable.perm (List.mergeSort_perm _ _).symm

/-- Without its unreachable states an automaton is well formed. -/
theorem WellFormed.removeUnreachable (hd : d.WellFormed) : d.removeUnreachable.WellFormed :=
  hd.kept_mergeSort_reachable.wellFormed_restrict hd

/-- Without its unreachable states an automaton has no more states. -/
theorem WellFormed.numStates_removeUnreachable_le (hd : d.WellFormed) :
    d.removeUnreachable.numStates ≤ d.numStates := by
  have hkept := hd.kept_mergeSort_reachable
  have hle := Universe.length_le_of_nodup hkept.nodup fun i hi ↦
    List.mem_range.mpr (hkept.lt i hi)
  rw [List.length_range] at hle
  rwa [Dfa.removeUnreachable, numStates_restrict]

/-- Without its unreachable states a complete automaton is complete. -/
theorem WellFormed.isComplete_removeUnreachable (hd : d.WellFormed)
    (hcomplete : d.isComplete = true) : d.removeUnreachable.isComplete = true :=
  hd.kept_mergeSort_reachable.isComplete_restrict hd hcomplete

/-- Words lead to all states but the unreachable ones. -/
theorem WellFormed.isAccessible_removeUnreachable (hd : d.WellFormed) :
    d.removeUnreachable.IsAccessible := by
  refine hd.kept_mergeSort_reachable.isAccessible_restrict hd fun i hi ↦ ?_
  exact mem_reachable_iff.mp (List.mem_mergeSort.mp hi)

/-- Without its unreachable states an automaton accepts the same words. -/
theorem WellFormed.accepts_removeUnreachable (hd : d.WellFormed) (w : List Char) :
    d.removeUnreachable.accepts w = d.accepts w :=
  hd.kept_mergeSort_reachable.accepts_restrict hd w

end LanguageTheory.Dfa
