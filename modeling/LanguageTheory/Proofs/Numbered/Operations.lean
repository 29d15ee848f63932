import LanguageTheory.Numbered.Operations
import LanguageTheory.Proofs.Dfa.Canonical
import LanguageTheory.Proofs.Dfa.Product
import LanguageTheory.Proofs.Numbered.Lookups

/-!
# Operations that find their entries

On the records of a well-formed automaton every operation finds what it looks up, and gives the
records of the automaton that the operation stands for.
-/

namespace LanguageTheory

open NumberedDfa (assemble? place? putId?)

namespace Dfa

variable {d e : Dfa} {i j k : Nat} {s : State} {a : Alphabet}

/-- Parts are put together if they are those of a well-formed automaton. -/
theorem WellFormed.assemble?_eq (hd : d.WellFormed) {rows : List NumberedDfa.State}
    (halphabet : a = d.alphabet) (hrows : rows = d.numbered.states) (hinitial : i = d.initial) :
    assemble? a rows i = some d.numbered := by
  rw [halphabet, hrows, hinitial]
  exact hd.assemble?_numbered

/-! ### Larger alphabets and total transition functions -/

/-- Reading an automaton over another alphabet finds its entries. -/
theorem WellFormed.withAlphabet?_numbered (hd : d.WellFormed) (ha : ∀ c ∈ d.alphabet, c ∈ a) :
    d.numbered.withAlphabet? a = some (d.withAlphabet a).numbered := by
  have hlength : d.numbered.states.length = (d.withAlphabet a).numbered.states.length := by
    rw [length_numbered, length_numbered, numStates_withAlphabet]
  have hdeclared : (d.numbered.alphabet.toList.all fun c ↦ decide (c ∈ a)) = true :=
    List.all_eq_true.mpr fun c hc ↦ decide_eq_true (ha c hc)
  rw [NumberedDfa.withAlphabet?, if_pos hdeclared,
    mapM_eq_some_of_getElem? hlength fun i r r' hr hr' ↦ ?_]
  · exact (hd.withAlphabet a).assemble?_numbered
  · rw [getElem?_numbered] at hr hr'
    obtain ⟨s, hs, rfl⟩ := Option.map_eq_some_iff.mp hr
    rw [state?_withAlphabet, hs] at hr'
    cases hr'
    have hi : i < d.numStates := exists_state?_iff.mp ⟨s, hs⟩
    rw [← record_of_state? hs, mapM_eq_some_map fun c _ ↦ hd.target?_numbered hi c]
    rw [record_of_state? hs]
    rfl

/-- Reading an automaton over its sorted alphabet finds its entries. -/
theorem WellFormed.overSorted_numbered (hd : d.WellFormed) :
    d.numbered.withAlphabet? d.numbered.alphabet.sorted = some d.overSorted.numbered :=
  hd.withAlphabet?_numbered d.mem_sorted_of_mem

/-- The records tell whether the transition function is total. -/
theorem all_isSome_numbered (d : Dfa) :
    (d.numbered.states.all fun r ↦ r.next.all Option.isSome) = d.isComplete := by
  rw [Bool.eq_iff_iff, List.all_eq_true, isComplete, Array.all_eq_true_iff_forall_mem]
  constructor
  · intro h s hs
    obtain ⟨i, hi⟩ := exists_of_mem_states hs
    refine h (s.numbered i) (List.mem_of_getElem? (i := i) ?_)
    rw [getElem?_numbered, hi]
    rfl
  · intro h r hr
    obtain ⟨i, s, hs, rfl⟩ := exists_of_mem_numbered hr
    exact h s (mem_states_of_state? hs)

/-- The labels in the records are those of the states. -/
theorem map_label_numbered (d : Dfa) :
    d.numbered.states.map NumberedDfa.State.label = d.states.toList.map State.label := by
  refine List.ext_getElem? fun i ↦ ?_
  rw [List.getElem?_map, List.getElem?_map, getElem?_numbered, Array.getElem?_toList, state?]
  cases d.states[i]? <;> rfl

/-- Completion finds its entries. -/
theorem WellFormed.complete?_numbered (hd : d.WellFormed) :
    d.numbered.complete? = some d.complete.numbered := by
  rw [NumberedDfa.complete?, all_isSome_numbered]
  cases h : d.isComplete with
  | true =>
    rw [complete_of_isComplete h]
    rfl
  | false =>
    refine hd.complete.assemble?_eq (alphabet_complete d).symm ?_ (initial_complete d).symm
    rw [map_label_numbered, length_numbered, Dfa.complete, if_neg (Bool.not_eq_true _ ▸ h)]
    have hrows : (d.numbered.states.map fun r ↦
        { r with next := r.next.map fun target ↦ some (target.getD d.numStates) }) =
        (d.states.toList.map fun s ↦
          { s with next := s.next.map fun target ↦ some (target.getD d.numStates) }).mapIdx
            State.numbered := by
      refine List.ext_getElem? fun i ↦ ?_
      rw [List.getElem?_map, getElem?_numbered, List.getElem?_mapIdx, List.getElem?_map,
        Array.getElem?_toList, state?]
      cases d.states[i]? <;> rfl
    rw [hrows]
    simp [numbered, numStates, State.numbered, List.mapIdx_append]

/-! ### Reachable states -/

/-- Placing kept states changes the entries of these states to their places. -/
theorem exists_foldlM_putId? {keep : List Nat} {k : Nat} {ids : List (Option Nat)}
    (hlt : ∀ i ∈ keep, i < ids.length) (hnodup : keep.Nodup) :
    ∃ ids', (keep.zipIdx k).foldlM putId? ids = some ids' ∧
      ∀ j < ids.length, ids'[j]? =
        if j ∈ keep then some ((keep.idxOf? j).map (· + k)) else ids[j]? := by
  induction keep generalizing k ids with
  | nil => exact ⟨ids, rfl, fun j _ ↦ by simp⟩
  | cons i keep ih =>
    obtain ⟨hi, hkeep⟩ := List.nodup_cons.mp hnodup
    have hput : putId? ids (i, k) = some (ids.set i (some k)) :=
      if_pos (hlt i List.mem_cons_self)
    have hrest : ∀ j ∈ keep, j < (ids.set i (some k)).length := by
      intro j hj
      rw [List.length_set]
      exact hlt j (List.mem_cons_of_mem _ hj)
    obtain ⟨ids', hids, hplaces⟩ := ih (k := k + 1) hrest hkeep
    refine ⟨ids', ?_, fun j hj ↦ ?_⟩
    · rw [List.zipIdx_cons, List.foldlM_cons, hput]
      exact hids
    · rw [hplaces j (by simpa using hj)]
      by_cases hji : j = i
      · subst hji
        simp [hi, hj, List.idxOf?_cons]
      · rw [List.getElem?_set_ne (Ne.symm hji)]
        have hshift : ∀ m, m + 1 + k = m + (k + 1) := fun m ↦ by omega
        simp [hji, Ne.symm hji, List.idxOf?_cons, Function.comp_def, hshift]

namespace Kept

variable {keep : List Nat} {relabel : Nat → String → String}

/-- The places of kept states are found. -/
theorem exists_newIds? (h : d.Kept keep) : ∃ ids, d.numbered.newIds? keep = some ids ∧
    ∀ j < d.numStates, ids[j]? = some (keep.idxOf? j) := by
  have hlt : ∀ i ∈ keep, i < (List.replicate d.numbered.states.length (none : Option Nat)).length :=
    fun i hi ↦ by simpa using h.lt i hi
  obtain ⟨ids, hids, hplaces⟩ := exists_foldlM_putId? (k := 0) hlt h.nodup
  refine ⟨ids, hids, fun j hj ↦ ?_⟩
  rw [hplaces j (by simpa using hj)]
  split
  · simp
  · next hj' =>
    have hnone : keep.idxOf? j = none := List.idxOf?_eq_none_iff.mpr hj'
    rw [hnone, length_numbered, List.getElem?_replicate_of_lt hj]

/-- Keeping some states finds their entries and the places of their successors. -/
theorem restrict?_numbered (h : d.Kept keep) (hd : d.WellFormed) :
    d.numbered.restrict? keep relabel = some (d.restrict keep relabel).numbered := by
  obtain ⟨ids, hids, hplaces⟩ := h.exists_newIds?
  have hlength : keep.zipIdx.length = (d.restrict keep relabel).numbered.states.length := by
    rw [List.length_zipIdx, length_numbered, numStates_restrict]
  have hinitial : ids[d.numbered.initial]? = some (keep.idxOf? d.initial) :=
    hplaces d.initial hd.initial_lt
  rw [NumberedDfa.restrict?, hids]
  dsimp only [Option.bind_eq_bind, Option.bind_some]
  rw [mapM_eq_some_of_getElem? hlength fun k entry r hentry hr ↦ ?_, hinitial]
  · exact (h.wellFormed_restrict hd).assemble?_eq rfl rfl rfl
  · rw [List.getElem?_zipIdx, Nat.zero_add] at hentry
    obtain ⟨i, hk, rfl⟩ := Option.map_eq_some_iff.mp hentry
    obtain ⟨s, hs⟩ := h.exists_state? hk
    rw [getElem?_numbered, state?_restrict hk hs] at hr
    cases hr
    have hnext : s.next.mapM (place? ids) =
        some (s.next.map fun target ↦ target.bind keep.idxOf?) := by
      refine mapM_eq_some_map fun target htarget ↦ ?_
      cases target with
      | none => rfl
      | some j => exact hplaces j (hd.next_lt s (mem_states_of_state? hs) j htarget)
    dsimp only
    rw [getElem?_numbered, hs]
    dsimp only [Option.map_some, Option.bind_some, State.numbered]
    rw [hnext]
    rfl

end Kept

namespace WellFormed

variable (hd : d.WellFormed)
include hd

/-- The successors that a search sees are those of the automaton. -/
theorem successors_numbered : d.numbered.successors = d.successors := by
  funext i
  rw [NumberedDfa.successors, getElem?_numbered]
  cases hs : d.state? i with
  | none =>
    rw [successors, edges, hs]
    rfl
  | some s =>
    have hnext : (s.numbered i).next = s.next := rfl
    rw [hd.successors_eq, Option.map_some, Option.elim_some, hnext, hd.next_eq hs,
      List.filterMap_map, Function.id_comp]

/-- The search for the reachable states finds what it looks up. -/
theorem reachable?_numbered : d.numbered.reachable? = some d.reachable := by
  have horder : (Agenda.explore d.numbered.successors [d.numbered.initial]
      d.numbered.bounded_successors).visited = d.reachable := by
    rw [reachable]
    simp only [hd.successors_numbered]
    rfl
  have hfound : (d.reachable.all fun i ↦ decide (i < d.numbered.states.length)) = true := by
    simpa using hd.kept_reachable.lt
  rw [NumberedDfa.reachable?, horder, if_pos hfound]

/-- Removing unreachable states finds its entries. -/
theorem removeUnreachable?_numbered :
    d.numbered.removeUnreachable? = some d.removeUnreachable.numbered := by
  rw [NumberedDfa.removeUnreachable?]
  refine Option.bind_eq_some_iff.mpr ⟨_, hd.reachable?_numbered, ?_⟩
  exact hd.kept_mergeSort_reachable.restrict?_numbered hd

/-- Canonical renaming finds its entries. -/
theorem canonize?_numbered : d.numbered.canonize? = some d.canonize.numbered := by
  rw [canonize_eq, NumberedDfa.canonize?]
  refine Option.bind_eq_some_iff.mpr ⟨_, hd.overSorted_numbered, ?_⟩
  refine Option.bind_eq_some_iff.mpr ⟨_, hd.overSorted.reachable?_numbered, ?_⟩
  exact hd.overSorted.kept_reachable.restrict?_numbered hd.overSorted

end WellFormed

/-! ### Products -/

/-- The record of a pair has the number of the pair. -/
def pairRecord (accept : Bool → Bool → Bool) (n : Nat) (r r' : NumberedDfa.State) :
    NumberedDfa.State where
  id := r.id * n + r'.id
  label := "(" ++ r.label ++ "," ++ r'.label ++ ")"
  isFinal := accept r.isFinal r'.isFinal
  next := r.next.zipWith (fun i j ↦ i.bind fun i ↦ j.map fun j ↦ i * n + j) r'.next

/-- The records of the pairs come in the order of their numbers. -/
theorem states_numbered_paired (accept : Bool → Bool → Bool) (d e : Dfa) :
    (paired accept d e).numbered.states = d.numbered.states.flatMap fun r ↦
      e.numbered.states.map (pairRecord accept e.numStates r) := by
  have hrow : ∀ r ∈ d.numbered.states,
      (e.numbered.states.map (pairRecord accept e.numStates r)).length = e.numStates :=
    fun r _ ↦ by rw [List.length_map, length_numbered]
  refine List.ext_getElem? fun k ↦ ?_
  rcases Nat.lt_or_ge k (paired accept d e).numStates with hk | hk
  · obtain ⟨i, hi, j, hj, rfl⟩ := exists_parts_of_lt hk
    obtain ⟨s, hs⟩ := exists_state?_iff.mpr hi
    obtain ⟨t, ht⟩ := exists_state?_iff.mpr hj
    rw [getElem?_flatMap_of_length hrow i hj, getElem?_numbered, getElem?_numbered,
      state?_paired hs ht, hs, Option.map_some, Option.map_some, Option.bind_some,
      List.getElem?_map, getElem?_numbered, ht]
    rfl
  · rw [List.getElem?_eq_none (by rwa [length_numbered]), List.getElem?_eq_none]
    rwa [length_flatMap_of_length hrow, length_numbered, ← numStates_paired]

/-- A product finds its entries. -/
theorem WellFormed.product?_numbered (hd : d.WellFormed) (he : e.WellFormed)
    (accept : Bool → Bool → Bool) :
    d.numbered.product? accept e.numbered = some (d.product accept e).numbered := by
  have halphabet : d.numbered.alphabet ∪ e.numbered.alphabet = d.alphabet ∪ e.alphabet := rfl
  have hleft := hd.withAlphabet?_numbered fun c (hc : c ∈ d.alphabet) ↦
    Alphabet.mem_union (b := e.alphabet).mpr (.inl hc)
  have hright := he.withAlphabet?_numbered fun c (hc : c ∈ e.alphabet) ↦
    Alphabet.mem_union (a := d.alphabet).mpr (.inr hc)
  have hwell := hd.product he accept
  rw [product_eq] at hwell ⊢
  rw [NumberedDfa.product?, halphabet]
  refine Option.bind_eq_some_iff.mpr ⟨_, hleft, ?_⟩
  refine Option.bind_eq_some_iff.mpr ⟨_, (hd.withAlphabet _).complete?_numbered, ?_⟩
  refine Option.bind_eq_some_iff.mpr ⟨_, hright, ?_⟩
  refine Option.bind_eq_some_iff.mpr ⟨_, (he.withAlphabet _).complete?_numbered, ?_⟩
  refine hwell.assemble?_eq (alphabet_completedOver _ _).symm ?_ ?_
  · rw [states_numbered_paired, length_numbered]
    rfl
  · rw [length_numbered]
    rfl

end Dfa

end LanguageTheory
