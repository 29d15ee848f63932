import LanguageTheory.Dfa.Completion
import LanguageTheory.Proofs.Dfa.Runs

/-!
# Languages over larger alphabets and of completed automata

Reading an automaton over an alphabet that has its characters changes no run. Completion only
continues runs that were stuck, in a state that accepts nothing.
-/

namespace LanguageTheory.Dfa

variable {d : Dfa} {a : Alphabet} {i : Nat} {c : Char} {w : List Char}

/-! ### Another alphabet -/

/-- The alphabet of an automaton that is read over another alphabet. -/
@[simp]
theorem alphabet_withAlphabet (d : Dfa) (a : Alphabet) : (d.withAlphabet a).alphabet = a := rfl

/-- The number of states does not depend on the alphabet. -/
@[simp]
theorem numStates_withAlphabet (d : Dfa) (a : Alphabet) :
    (d.withAlphabet a).numStates = d.numStates := Array.size_map

/-- The states over another alphabet are the old ones with the old successors. -/
theorem state?_withAlphabet (d : Dfa) (a : Alphabet) (i : Nat) :
    (d.withAlphabet a).state? i =
      (d.state? i).map fun s ↦ { s with next := a.toList.map (d.next? i) } := by
  have hmap : (d.withAlphabet a).state? i = (d.state? i).map fun s ↦
      { s with next := a.toList.map fun c ↦ (d.alphabet.idxOf? c).bind fun k ↦ s.next[k]?.join } :=
    Array.getElem?_map
  rw [hmap]
  cases hs : d.state? i with
  | none => rfl
  | some s =>
    simp only [Option.map_some, Option.some.injEq, State.mk.injEq, true_and]
    refine List.map_congr_left fun c _ ↦ ?_
    unfold next?
    rw [hs]
    rfl

/-- The same states are final over another alphabet. -/
@[simp]
theorem isFinal_withAlphabet (d : Dfa) (a : Alphabet) (i : Nat) :
    (d.withAlphabet a).isFinal i = d.isFinal i := by
  rw [isFinal, isFinal, state?_withAlphabet]
  cases d.state? i <;> rfl

/-- The successors over another alphabet are the old ones, on its characters. -/
theorem next?_withAlphabet (d : Dfa) (a : Alphabet) (i : Nat) (c : Char) :
    (d.withAlphabet a).next? i c = if c ∈ a then d.next? i c else none := by
  by_cases hc : c ∈ a
  · rw [if_pos hc]
    cases hs : d.state? i with
    | none =>
      have hi : d.numStates ≤ i := Array.getElem?_eq_none_iff.mp hs
      rw [next?_of_le hi]
      exact next?_of_le (by rwa [numStates_withAlphabet])
    | some s =>
      have hs' := state?_withAlphabet d a i
      rw [hs, Option.map_some] at hs'
      exact next?_of_next_eq (d := d.withAlphabet a) hs' rfl hc
  · rw [if_neg hc]
    exact next?_of_notMem hc

/-- Over an alphabet that has all its characters an automaton has the same successors. -/
theorem next?_withAlphabet_of_subset (h : ∀ c ∈ d.alphabet, c ∈ a) :
    (d.withAlphabet a).next? i c = d.next? i c := by
  rw [next?_withAlphabet]
  split
  · rfl
  · next hc => exact (next?_of_notMem fun hd ↦ hc (h c hd)).symm

/-- An automaton is well formed over any alphabet. -/
theorem WellFormed.withAlphabet (hd : d.WellFormed) (a : Alphabet) :
    (d.withAlphabet a).WellFormed := by
  have hinitial : d.initial < d.numStates := hd.initial_lt
  rw [← numStates_withAlphabet d a] at hinitial
  refine .of_next hinitial fun i t ht ↦ ?_
  rw [state?_withAlphabet] at ht
  obtain ⟨s, _, rfl⟩ := Option.map_eq_some_iff.mp ht
  refine ⟨d.next? i, rfl, fun c j hj ↦ ?_⟩
  rw [numStates_withAlphabet]
  exact hd.lt_of_next? hj

/-- Over an alphabet that has all its characters an automaton has the same runs. -/
theorem run_withAlphabet (h : ∀ c ∈ d.alphabet, c ∈ a) (i : Nat) (w : List Char) :
    (d.withAlphabet a).run i w = d.run i w := by
  induction w generalizing i with
  | nil => rfl
  | cons c w ih =>
    rw [run_cons, run_cons, next?_withAlphabet_of_subset h]
    exact congrArg _ (funext ih)

/-- Over an alphabet that has all its characters a state accepts the same words. -/
theorem acceptsFrom_withAlphabet (h : ∀ c ∈ d.alphabet, c ∈ a) (i : Nat) (w : List Char) :
    (d.withAlphabet a).acceptsFrom i w = d.acceptsFrom i w := by
  rw [acceptsFrom, acceptsFrom, run_withAlphabet h]
  exact congrArg _ (funext (isFinal_withAlphabet d a))

/-- Over an alphabet that has all its characters an automaton accepts the same words. -/
theorem accepts_withAlphabet (h : ∀ c ∈ d.alphabet, c ∈ a) (w : List Char) :
    (d.withAlphabet a).accepts w = d.accepts w := acceptsFrom_withAlphabet h d.initial w

/-! ### Completion -/

/-- A complete automaton is left as it is. -/
theorem complete_of_isComplete (h : d.isComplete = true) : d.complete = d := if_pos h

/-- Completion keeps the alphabet. -/
@[simp]
theorem alphabet_complete (d : Dfa) : d.complete.alphabet = d.alphabet := by
  unfold complete
  split <;> rfl

/-- Completion keeps the initial state. -/
@[simp]
theorem initial_complete (d : Dfa) : d.complete.initial = d.initial := by
  unfold complete
  split <;> rfl

section Sink

variable (h : d.isComplete = false)

include h

private theorem states_complete :
    d.complete.states = (d.states.map fun s ↦
      { s with next := s.next.map fun t ↦ some (t.getD d.numStates) }).push
        { label := freshName sinkLabel (d.states.toList.map State.label)
          isFinal := false
          next := List.replicate d.alphabet.size (some d.numStates) } := by
  unfold complete
  rw [if_neg (by rw [h]; exact Bool.false_ne_true)]

/-- Completion adds one state. -/
theorem numStates_complete : d.complete.numStates = d.numStates + 1 := by
  rw [numStates, states_complete h, Array.size_push, Array.size_map]
  rfl

/-- Completion sends the missing transitions of a state to the sink. -/
theorem state?_complete_of_state? {s : State} (hs : d.state? i = some s) :
    d.complete.state? i =
      some { s with next := s.next.map fun t ↦ some (t.getD d.numStates) } := by
  have hi : i ≠ d.states.size := Nat.ne_of_lt (exists_state?_iff.mp ⟨s, hs⟩)
  rw [state?] at hs
  rw [state?, states_complete h, Array.getElem?_push, Array.size_map, if_neg hi,
    Array.getElem?_map, hs]
  rfl

/-- The sink comes last. -/
theorem state?_complete_sink :
    d.complete.state? d.numStates =
      some { label := freshName sinkLabel (d.states.toList.map State.label)
             isFinal := false
             next := List.replicate d.alphabet.size (some d.numStates) } := by
  rw [state?, states_complete h, Array.getElem?_push, Array.size_map]
  exact if_pos rfl

/-- The same states are final after completion. -/
theorem isFinal_complete (hi : i < d.numStates) : d.complete.isFinal i = d.isFinal i := by
  obtain ⟨s, hs⟩ := exists_state?_iff.mpr hi
  rw [isFinal_of_state? hs, isFinal_of_state? (state?_complete_of_state? h hs)]

/-- Completion sends the missing transitions to the sink and keeps the others. -/
theorem next?_complete (hd : d.WellFormed) (hi : i < d.numStates) (hc : c ∈ d.alphabet) :
    d.complete.next? i c = some ((d.next? i c).getD d.numStates) := by
  obtain ⟨s, hs⟩ := exists_state?_iff.mpr hi
  exact hd.next?_of_next_map (alphabet_complete d) hs (state?_complete_of_state? h hs) rfl hc

/-- The sink is never left. -/
theorem next?_complete_sink (hc : c ∈ d.alphabet) :
    d.complete.next? d.numStates c = some d.numStates := by
  refine next?_of_next_eq (state?_complete_sink h) (f := fun _ ↦ some d.numStates) ?_ ?_
  · rw [List.map_const', alphabet_complete]
    rfl
  · rwa [alphabet_complete]

/-- Nothing is accepted from the sink. -/
theorem acceptsFrom_complete_sink (w : List Char) :
    d.complete.acceptsFrom d.numStates w = false := by
  induction w with
  | nil => rw [acceptsFrom_nil, isFinal_of_state? (state?_complete_sink h)]
  | cons c w ih =>
    rw [acceptsFrom_cons]
    by_cases hc : c ∈ d.alphabet
    · rw [next?_complete_sink h hc]
      exact ih
    · rw [next?_of_notMem (by rwa [alphabet_complete])]
      rfl

end Sink

/-- Completion adds at most one state. -/
theorem numStates_complete_le (d : Dfa) : d.complete.numStates ≤ d.numStates + 1 := by
  cases h : d.isComplete with
  | true =>
    rw [complete, if_pos h]
    exact Nat.le_succ _
  | false => exact (numStates_complete h).le

/-- Completion keeps a well-formed automaton well formed. -/
theorem WellFormed.complete (hd : d.WellFormed) : d.complete.WellFormed := by
  cases h : d.isComplete with
  | true => rwa [complete_of_isComplete h]
  | false =>
    have hsize := numStates_complete h
    refine .of_next ?_ fun i t ht ↦ ?_
    · rw [initial_complete, hsize]
      exact Nat.lt_succ_of_lt hd.initial_lt
    · have hi := exists_state?_iff.mp ⟨t, ht⟩
      rw [hsize] at hi
      rw [alphabet_complete, hsize]
      rcases Nat.lt_succ_iff_lt_or_eq.mp hi with hi | rfl
      · obtain ⟨s, hs⟩ := exists_state?_iff.mpr hi
        rw [state?_complete_of_state? h hs] at ht
        cases ht
        refine ⟨fun c ↦ some ((d.next? i c).getD d.numStates), ?_, fun c j hj ↦ ?_⟩
        · rw [hd.next_eq hs, List.map_map]
          rfl
        · cases hj
          cases hnext : d.next? i c with
          | none => exact Nat.lt_succ_self _
          | some j => exact Nat.lt_succ_of_lt (hd.lt_of_next? hnext)
      · rw [state?_complete_sink h] at ht
        cases ht
        refine ⟨fun _ ↦ some d.numStates, ?_, fun c j hj ↦ ?_⟩
        · rw [List.map_const']
          rfl
        · cases hj
          exact Nat.lt_succ_self _

/-- Completion makes an automaton complete. -/
theorem WellFormed.isComplete_complete (hd : d.WellFormed) : d.complete.isComplete = true := by
  cases h : d.isComplete with
  | true => rwa [complete_of_isComplete h]
  | false =>
    rw [hd.complete.isComplete_iff, numStates_complete h, alphabet_complete]
    intro i hi c hc
    rcases Nat.lt_succ_iff_lt_or_eq.mp hi with hi | rfl
    · exact ⟨_, next?_complete h hd hi hc⟩
    · exact ⟨_, next?_complete_sink h hc⟩

/-- The states of an automaton accept the same words after completion. -/
theorem WellFormed.acceptsFrom_complete (hd : d.WellFormed) (hi : i < d.numStates) :
    d.complete.acceptsFrom i w = d.acceptsFrom i w := by
  cases h : d.isComplete with
  | true => rw [complete_of_isComplete h]
  | false =>
    induction w generalizing i with
    | nil => exact isFinal_complete h hi
    | cons c w ih =>
      rw [acceptsFrom_cons, acceptsFrom_cons]
      by_cases hc : c ∈ d.alphabet
      · rw [next?_complete h hd hi hc]
        cases hnext : d.next? i c with
        | none => exact acceptsFrom_complete_sink h w
        | some j => exact ih (hd.lt_of_next? hnext)
      · rw [next?_of_notMem hc, next?_of_notMem (by rwa [alphabet_complete])]
        rfl

/-- Completion keeps the words of an automaton. -/
theorem WellFormed.accepts_complete (hd : d.WellFormed) (w : List Char) :
    d.complete.accepts w = d.accepts w := by
  rw [accepts_eq_acceptsFrom, initial_complete]
  exact hd.acceptsFrom_complete hd.initial_lt

end LanguageTheory.Dfa
