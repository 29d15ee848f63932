import LanguageTheory.Numbered.Basic
import LanguageTheory.Proofs.Collections.Indexing
import LanguageTheory.Proofs.Dfa.Reachability
import LanguageTheory.Proofs.Search.Trails

/-!
# Lookups that succeed

In a well-formed automaton every number that is looked up has its entry: runs, transitions and
shortest words are computed without a failure, and they are those of the automaton.
-/

namespace LanguageTheory.Dfa

open NumberedDfa (assemble? edgesFrom?)

variable {d : Dfa} {i j : Nat} {s : State} {c : Char} {w : List Char}

/-! ### Records -/

/-- The record of state number `i`. -/
def record (d : Dfa) (i : Nat) : NumberedDfa.State := ((d.state? i).getD default).numbered i

/-- A record has the parts of its state. -/
theorem record_of_state? (hs : d.state? i = some s) : d.record i = s.numbered i := by
  rw [record, hs]
  rfl

/-- The record of a state has its place. -/
theorem getElem?_numbered (d : Dfa) (i : Nat) :
    d.numbered.states[i]? = (d.state? i).map (State.numbered i) := by
  rw [numbered, List.getElem?_mapIdx, Array.getElem?_toList]
  rfl

/-- There is one record for each state. -/
@[simp]
theorem length_numbered (d : Dfa) : d.numbered.states.length = d.numStates := by
  rw [numbered, List.length_mapIdx, Array.length_toList]
  rfl

/-- A state is looked up by its number. -/
theorem getElem?_numbered_of_lt (hi : i < d.numStates) :
    d.numbered.states[i]? = some (d.record i) := by
  obtain ⟨s, hs⟩ := exists_state?_iff.mpr hi
  rw [getElem?_numbered, hs, record_of_state? hs]
  rfl

/-- The records are those of the states in the order of their numbers. -/
theorem states_numbered (d : Dfa) :
    d.numbered.states = (List.range d.numStates).map d.record := by
  refine List.ext_getElem? fun i ↦ ?_
  rw [List.getElem?_map]
  rcases Nat.lt_or_ge i d.numStates with hi | hi
  · rw [getElem?_numbered_of_lt hi, List.getElem?_range hi]
    rfl
  · rw [List.getElem?_eq_none (by rwa [length_numbered]),
      List.getElem?_eq_none (by rwa [List.length_range])]
    rfl

/-- A record is that of a state. -/
theorem exists_of_mem_numbered {r : NumberedDfa.State} (h : r ∈ d.numbered.states) :
    ∃ i s, d.state? i = some s ∧ r = s.numbered i := by
  obtain ⟨i, hi⟩ := List.mem_iff_getElem?.mp h
  rw [getElem?_numbered] at hi
  obtain ⟨s, hs, rfl⟩ := Option.map_eq_some_iff.mp hi
  exact ⟨i, s, hs, rfl⟩

namespace WellFormed

variable (hd : d.WellFormed)
include hd

/-- The records of a well-formed automaton are sound. -/
theorem sound_numbered : d.numbered.Sound where
  id_eq i r hr := by
    rw [getElem?_numbered] at hr
    obtain ⟨s, -, rfl⟩ := Option.map_eq_some_iff.mp hr
    rfl
  length_next r hr := by
    obtain ⟨i, s, hs, rfl⟩ := exists_of_mem_numbered hr
    exact hd.length_next s (mem_states_of_state? hs)
  next_lt r hr j hj := by
    obtain ⟨i, s, hs, rfl⟩ := exists_of_mem_numbered hr
    rw [length_numbered]
    exact hd.next_lt s (mem_states_of_state? hs) j hj
  initial_lt := by
    rw [length_numbered]
    exact hd.initial_lt
  nodup := d.alphabet.chars.nodup

/-- The records of a well-formed automaton can be put together. -/
theorem assemble?_numbered :
    assemble? d.alphabet d.numbered.states d.initial = some d.numbered := by
  refine if_pos ⟨hd.sound_numbered.initial_lt, ?_⟩
  rw [length_numbered, states_numbered, List.map_map]
  exact List.map_id _

/-- The entry for a character is found. -/
theorem target?_numbered (hi : i < d.numStates) (c : Char) :
    d.numbered.target? (d.record i) c = some (d.next? i c) := by
  obtain ⟨s, hs⟩ := exists_state?_iff.mpr hi
  rw [record_of_state? hs, NumberedDfa.target?]
  cases hk : d.numbered.alphabet.idxOf? c with
  | none => rw [next?_of_notMem (Alphabet.idxOf?_eq_none_iff.mp hk)]
  | some k =>
    have hc : d.alphabet.toList[k]? = some c := Alphabet.idxOf?_eq_some_iff.mp hk
    dsimp only [State.numbered]
    rw [hd.next_eq hs, List.getElem?_map, hc]
    rfl

/-! ### Runs -/

/-- A successor is found. -/
theorem next?_numbered (hi : i < d.numStates) (c : Char) :
    d.numbered.next? (d.record i) c = some ((d.next? i c).map d.record) := by
  rw [NumberedDfa.next?, hd.target?_numbered hi]
  exact optionMapM_eq_some_map fun j hj ↦ getElem?_numbered_of_lt (hd.lt_of_next? hj)

/-- Every step of a run is found. -/
theorem run?_numbered (hi : i < d.numStates) (w : List Char) :
    d.numbered.run? (d.record i) w = some ((d.run i w).map d.record) := by
  induction w generalizing i with
  | nil => rfl
  | cons c w ih =>
    rw [NumberedDfa.run?, hd.next?_numbered hi, run_cons]
    cases hj : d.next? i c with
    | none => rfl
    | some j => exact ih (hd.lt_of_next? hj)

/-- Deciding whether a word is accepted finds all that it looks up. -/
theorem accepts?_numbered (w : List Char) : d.numbered.accepts? w = some (d.accepts w) := by
  have hinitial : d.numbered.states[d.numbered.initial]? = some (d.record d.initial) :=
    getElem?_numbered_of_lt hd.initial_lt
  rw [NumberedDfa.accepts?, hinitial]
  dsimp only [Option.bind_some, Option.bind_eq_bind]
  rw [hd.run?_numbered hd.initial_lt, accepts]
  cases hj : d.run d.initial w with
  | none => rfl
  | some j =>
    obtain ⟨s, hs⟩ := exists_state?_iff.mpr (hd.lt_of_run hd.initial_lt hj)
    dsimp only [Option.bind_some, Option.elim, Option.map_some]
    rw [record_of_state? hs, isFinal_of_state? hs]
    rfl

end WellFormed

/-! ### Transitions -/

/-- Each listed successor belongs to a character if there are enough of them. -/
theorem edgesFrom?_eq {a : Alphabet} {k : Nat} {next : List (Option Nat)}
    (h : k + next.length ≤ a.size) : edgesFrom? a k next =
      some (((a.toList.drop k).zip next).filterMap fun (c, t) ↦ t.map fun j ↦ (c, j)) := by
  induction next generalizing k with
  | nil => simp [edgesFrom?]
  | cons target next ih =>
    rw [List.length_cons] at h
    have hk : k < a.toList.length := Nat.lt_of_lt_of_le (by omega) h
    have hget : a.get? k = some a.toList[k] := List.getElem?_eq_getElem hk
    have hrest := ih (k := k + 1) (by omega)
    rw [List.drop_eq_getElem_cons hk, List.zip_cons_cons]
    cases target with
    | none => simpa [edgesFrom?] using hrest
    | some j =>
      rw [edgesFrom?, hget, hrest]
      simp

namespace WellFormed

variable (hd : d.WellFormed)
include hd

/-- The transitions from a state are found. -/
theorem edges?_numbered (hi : i < d.numStates) :
    d.numbered.edges? (d.record i) = some (d.edges i) := by
  obtain ⟨s, hs⟩ := exists_state?_iff.mpr hi
  have hlength : 0 + s.next.length ≤ d.alphabet.size := by
    rw [hd.length_next s (mem_states_of_state? hs), Nat.zero_add]
  rw [record_of_state? hs, edges, hs]
  exact edgesFrom?_eq hlength

/-- The targets of the transitions from a state are found. -/
theorem transitionsFrom?_numbered (hi : i < d.numStates) :
    d.numbered.transitionsFrom? (d.record i) =
      some ((d.edges i).map fun (c, j) ↦ (d.record i, c, d.record j)) := by
  rw [NumberedDfa.transitionsFrom?, hd.edges?_numbered hi]
  refine mapM_eq_some_map fun (c, j) he ↦ ?_
  have hj : j < d.numStates := hd.lt_of_next? (mem_edges_iff.mp he)
  dsimp only
  rw [getElem?_numbered_of_lt hj]
  rfl

/-- All transitions are found. -/
theorem transitions?_numbered : d.numbered.transitions? =
    some (d.transitions.map fun (i, c, j) ↦ (d.record i, c, d.record j)) := by
  have hrows : d.numbered.states.mapM d.numbered.transitionsFrom? =
      some ((List.range d.numStates).map fun i ↦
        (d.edges i).map fun (c, j) ↦ (d.record i, c, d.record j)) := by
    rw [states_numbered, List.mapM_map]
    exact mapM_eq_some_map fun i hi ↦ hd.transitionsFrom?_numbered (List.mem_range.mp hi)
  rw [NumberedDfa.transitions?, hrows, transitions]
  simp only [Option.bind_eq_bind, Option.bind_some, Option.pure_def, ← List.flatMap_def,
    List.map_flatMap, List.map_map]
  rfl

/-! ### Shortest words -/

/-- The transitions that a search sees are those of the automaton. -/
theorem edges_numbered : d.numbered.edges = d.edges := by
  funext i
  rw [NumberedDfa.edges]
  rcases Nat.lt_or_ge i d.numStates with hi | hi
  · rw [getElem?_numbered_of_lt hi, Option.bind_some, hd.edges?_numbered hi]
    rfl
  · have hs : d.state? i = none := Array.getElem?_eq_none hi
    rw [getElem?_numbered, hs, edges, hs]
    rfl

omit hd in
/-- The states that a search ends at are the final states of the automaton. -/
theorem isFinal_numbered (d : Dfa) : d.numbered.isFinal = d.isFinal := by
  funext i
  rw [NumberedDfa.isFinal, getElem?_numbered, isFinal]
  cases d.state? i <;> rfl

/-- The search for a shortest word finds all that it looks up. -/
theorem shortestWord?_numbered : d.numbered.shortestWord? = some d.shortestWord? := by
  obtain ⟨trail, hdef⟩ : ∃ trail, trail =
      (Trail.start d.initial).exploreUntil d.isFinal d.edges d.bounded_edges := ⟨_, rfl⟩
  have htrail : (Trail.start d.numbered.initial).exploreUntil d.numbered.isFinal d.numbered.edges
      d.numbered.bounded_edges = trail := by
    simp only [isFinal_numbered, hd.edges_numbered, hdef]
    rfl
  have hreached : ∀ i, trail.contains i = true → i < d.numStates :=
    hdef ▸ Trail.forall_contains_exploreUntil d.bounded_edges hd.initial_lt
      fun i _ e he ↦ hd.lt_of_next? (mem_edges_iff.mp he)
  have hgrounded : trail.Grounded :=
    hdef ▸ (Trail.grounded_start d.initial).exploreUntil d.bounded_edges
  have hfound : (trail.reached.keys.all fun i ↦
      ((d.numbered.states[i]?).bind d.numbered.edges?).isSome) = true := by
    rw [List.all_eq_true]
    intro i hi
    have hlt := hreached i (Trail.contains_iff.mpr hi)
    rw [getElem?_numbered_of_lt hlt, Option.bind_some, hd.edges?_numbered hlt]
    rfl
  rw [NumberedDfa.shortestWord?, htrail, if_pos hfound, shortestWord?, Trail.pathToGoal?, ← hdef]
  cases hgoal : trail.peek? with
  | none => rfl
  | some i =>
    obtain ⟨path, hpath⟩ :=
      hgrounded.exists_path? (Trail.contains_iff.mpr (Trail.mem_keys_of_peek? hgoal))
    dsimp only
    rw [hpath]
    rfl

end WellFormed

end LanguageTheory.Dfa
