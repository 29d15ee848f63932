import LanguageTheory.Dfa.Basic
import LanguageTheory.Proofs.Collections.OrderedSet
import Mathlib.Data.Option.Basic
import Mathlib.Logic.Relator

/-!
# Runs of deterministic automata

A state of a well-formed automaton is known by its label, its finality and its successors on all
characters. A relation between the states of two automata that finality and the successors respect
relates their runs as well, so related states accept the same words.
-/

namespace LanguageTheory.Dfa

variable {d e : Dfa} {i j : Nat} {c : Char} {w : List Char}

/-! ### States and successors -/

/-- There is a state for each number below the number of states. -/
theorem exists_state?_iff : (∃ s, d.state? i = some s) ↔ i < d.numStates := by
  constructor
  · rintro ⟨s, hs⟩
    exact (Array.getElem?_eq_some_iff.mp hs).1
  · intro hi
    exact ⟨_, Array.getElem?_eq_getElem hi⟩

/-- A numbered state is a state. -/
theorem mem_states_of_state? {s : State} (hs : d.state? i = some s) : s ∈ d.states :=
  Array.mem_of_getElem? hs

/-- A state has a number. -/
theorem exists_of_mem_states {s : State} (hs : s ∈ d.states) : ∃ i, d.state? i = some s :=
  Array.mem_iff_getElem?.mp hs

/-- The successor on a character is the entry in the place of the character. -/
theorem next?_of_getElem? {k : Nat} {s : State} (hc : d.alphabet.toList[k]? = some c)
    (hs : d.state? i = some s) : d.next? i c = s.next[k]?.join := by
  unfold next?
  rw [Alphabet.idxOf?_eq_some_iff.mpr hc, hs]
  rfl

/-- The successor on a declared character, for a state that lists its successors by a function of
the characters. -/
theorem next?_of_next_eq {s : State} {f : Char → Option Nat} (hs : d.state? i = some s)
    (hn : s.next = d.alphabet.toList.map f) (hc : c ∈ d.alphabet) : d.next? i c = f c := by
  obtain ⟨k, hk⟩ := List.mem_iff_getElem?.mp (Alphabet.mem_toList.mpr hc)
  rw [next?_of_getElem? hk hs, hn, List.getElem?_map, hk]
  rfl

/-- There is no successor on a character that is not declared. -/
theorem next?_of_notMem (hc : c ∉ d.alphabet) : d.next? i c = none := by
  unfold next?
  rw [Alphabet.idxOf?_eq_none_iff.mpr hc]
  rfl

/-- There is no successor where there is no state. -/
theorem next?_of_le (hi : d.numStates ≤ i) : d.next? i c = none := by
  have hs : d.state? i = none := Array.getElem?_eq_none hi
  unfold next?
  rw [hs]
  cases d.alphabet.idxOf? c <;> rfl

/-- What has a successor is a state, and the character is declared. -/
theorem lt_and_mem_of_next? (h : d.next? i c = some j) : i < d.numStates ∧ c ∈ d.alphabet := by
  constructor
  · refine Nat.lt_of_not_le fun hi ↦ ?_
    rw [next?_of_le hi] at h
    cases h
  · refine Decidable.byContradiction fun hc ↦ ?_
    rw [next?_of_notMem hc] at h
    cases h

/-- A state of a well-formed automaton lists its successors in the order of the alphabet. -/
theorem WellFormed.next_eq (hd : d.WellFormed) {s : State} (hs : d.state? i = some s) :
    s.next = d.alphabet.toList.map (d.next? i) := by
  have hlength := hd.length_next s (mem_states_of_state? hs)
  apply List.ext_getElem?
  intro k
  rw [List.getElem?_map]
  cases hc : d.alphabet.toList[k]? with
  | none =>
    have hk := List.getElem?_eq_none_iff.mp hc
    rw [List.getElem?_eq_none (hlength.trans_le hk)]
    rfl
  | some c =>
    have hk : k < s.next.length := by
      rw [hlength]
      exact (List.getElem?_eq_some_iff.mp hc).1
    rw [Option.map_some, next?_of_getElem? hc hs, List.getElem?_eq_getElem hk]
    rfl

/-- When a state lists what a function makes of the successors of another state, its successors are
made of the successors of this state. -/
theorem WellFormed.next?_of_next_map (hd : d.WellFormed) (halphabet : e.alphabet = d.alphabet)
    {s t : State} {f : Option Nat → Option Nat} (hs : d.state? i = some s)
    (ht : e.state? j = some t) (hn : t.next = s.next.map f) (hc : c ∈ d.alphabet) :
    e.next? j c = f (d.next? i c) := by
  have hnext : t.next = e.alphabet.toList.map fun c ↦ f (d.next? i c) := by
    rw [hn, hd.next_eq hs, halphabet, List.map_map]
    rfl
  exact next?_of_next_eq ht hnext (halphabet ▸ hc)

/-- An automaton is well formed when every state lists states by a function of the characters. -/
theorem WellFormed.of_next (hinitial : d.initial < d.numStates)
    (hnext : ∀ i s, d.state? i = some s → ∃ f : Char → Option Nat,
      s.next = d.alphabet.toList.map f ∧ ∀ c j, f c = some j → j < d.numStates) :
    d.WellFormed := by
  constructor
  · exact hinitial
  · intro s hs
    obtain ⟨i, hi⟩ := exists_of_mem_states hs
    obtain ⟨f, hf, _⟩ := hnext i s hi
    rw [hf, List.length_map]
    rfl
  · intro s hs j hj
    obtain ⟨i, hi⟩ := exists_of_mem_states hs
    obtain ⟨f, hf, hlt⟩ := hnext i s hi
    rw [hf] at hj
    obtain ⟨c, _, hc⟩ := List.mem_map.mp hj
    exact hlt c j hc

/-- An automaton is well formed when every state lists what a function makes of the successors of a
state of a well-formed one. -/
theorem WellFormed.of_next_map (hd : d.WellFormed) (halphabet : e.alphabet = d.alphabet)
    (hinitial : e.initial < e.numStates) (hnext : ∀ j t, e.state? j = some t → ∃ i s f,
      d.state? i = some s ∧ t.next = s.next.map f ∧
        ∀ c k, f (d.next? i c) = some k → k < e.numStates) : e.WellFormed := by
  refine .of_next hinitial fun j t ht ↦ ?_
  obtain ⟨i, s, f, hs, hn, hlt⟩ := hnext j t ht
  refine ⟨fun c ↦ f (d.next? i c), ?_, hlt⟩
  rw [hn, hd.next_eq hs, halphabet, List.map_map]
  rfl

/-- The successors of a well-formed automaton are states. -/
theorem WellFormed.lt_of_next? (hd : d.WellFormed) (h : d.next? i c = some j) :
    j < d.numStates := by
  obtain ⟨hi, hc⟩ := lt_and_mem_of_next? h
  obtain ⟨s, hs⟩ := exists_state?_iff.mpr hi
  apply hd.next_lt s (mem_states_of_state? hs)
  rw [hd.next_eq hs, List.mem_map]
  exact ⟨c, hc, h⟩

/-- The edges of a state lead to its successors. -/
theorem mem_edges_iff : (c, j) ∈ d.edges i ↔ d.next? i c = some j := by
  unfold edges
  split
  · next hs =>
    rw [next?_of_le (Array.getElem?_eq_none_iff.mp hs)]
    simp
  · next s hs =>
    rw [List.mem_filterMap]
    constructor
    · rintro ⟨⟨a, t⟩, hat, he⟩
      obtain ⟨k, rfl, he⟩ := Option.map_eq_some_iff.mp he
      cases he
      obtain ⟨m, hm⟩ := List.mem_iff_getElem?.mp hat
      obtain ⟨hc, hj⟩ := List.getElem?_zip_eq_some.mp hm
      rw [next?_of_getElem? hc hs, hj]
      rfl
    · intro h
      obtain ⟨m, hc⟩ := List.mem_iff_getElem?.mp (Alphabet.mem_toList.mpr (lt_and_mem_of_next? h).2)
      rw [next?_of_getElem? hc hs, Option.join_eq_some_iff] at h
      have hm : (d.alphabet.toList.zip s.next)[m]? = some (c, some j) :=
        List.getElem?_zip_eq_some.mpr ⟨hc, h⟩
      exact ⟨(c, some j), List.mem_iff_getElem?.mpr ⟨m, hm⟩, rfl⟩

/-- The listed transitions are those of the transition function. -/
theorem mem_transitions_iff : (i, c, j) ∈ d.transitions ↔ d.next? i c = some j := by
  rw [transitions, List.mem_flatMap, ← mem_edges_iff]
  constructor
  · rintro ⟨k, _, h⟩
    obtain ⟨e, he, heq⟩ := List.mem_map.mp h
    cases heq
    exact he
  · intro h
    have hi := (lt_and_mem_of_next? (mem_edges_iff.mp h)).1
    exact ⟨i, List.mem_range.mpr hi, List.mem_map.mpr ⟨(c, j), h, rfl⟩⟩

/-- In a complete automaton every state has a successor on every character. -/
theorem WellFormed.isComplete_iff (hd : d.WellFormed) :
    d.isComplete = true ↔
      ∀ i < d.numStates, ∀ c ∈ d.alphabet, ∃ j, d.next? i c = some j := by
  unfold isComplete
  rw [Array.all_eq_true_iff_forall_mem]
  constructor
  · intro h i hi c hc
    obtain ⟨s, hs⟩ := exists_state?_iff.mpr hi
    have hall := List.all_eq_true.mp (h s (mem_states_of_state? hs))
    apply Option.isSome_iff_exists.mp
    apply hall
    rw [hd.next_eq hs, List.mem_map]
    exact ⟨c, hc, rfl⟩
  · intro h s hs
    obtain ⟨i, hs⟩ := exists_of_mem_states hs
    have hi := exists_state?_iff.mp ⟨s, hs⟩
    rw [State.isComplete, hd.next_eq hs, List.all_map, List.all_eq_true]
    intro c hc
    exact Option.isSome_iff_exists.mpr (h i hi c hc)

/-- Whether a state is final is asked of states only. -/
theorem isFinal_of_state? {s : State} (hs : d.state? i = some s) : d.isFinal i = s.isFinal := by
  rw [isFinal, hs]
  rfl

/-- Only states are final. -/
theorem lt_of_isFinal (h : d.isFinal i = true) : i < d.numStates := by
  refine Nat.lt_of_not_le fun hi ↦ ?_
  have hs : d.state? i = none := Array.getElem?_eq_none hi
  rw [isFinal, hs] at h
  cases h

/-- The listed final states are final. -/
theorem mem_finalStates_iff : i ∈ d.finalStates ↔ d.isFinal i = true := by
  rw [finalStates, List.mem_filter, List.mem_range]
  exact and_iff_right_of_imp lt_of_isFinal

/-- The label of a state. -/
theorem label_of_state? {s : State} (hs : d.state? i = some s) : d.label i = s.label := by
  rw [label, hs]
  rfl

/-- A label is found at its first place among the labels. -/
theorem findLabel?_eq_idxOf? (d : Dfa) (label : String) :
    d.findLabel? label = (d.states.toList.map State.label).idxOf? label := by
  rw [findLabel?, List.idxOf?, List.findIdx?_map, ← List.findIdx?_toArray, Array.toArray_toList]
  rfl

/-- Well-formed automata are equal when their states are labelled alike, are final alike and have
the same successors. -/
theorem WellFormed.ext (hd : d.WellFormed) (he : e.WellFormed) (halphabet : d.alphabet = e.alphabet)
    (hsize : d.numStates = e.numStates) (hinitial : d.initial = e.initial)
    (hlabel : ∀ i < d.numStates, d.label i = e.label i)
    (hfinal : ∀ i < d.numStates, d.isFinal i = e.isFinal i)
    (hnext : ∀ i < d.numStates, ∀ c, d.next? i c = e.next? i c) : d = e := by
  have hstates : d.states = e.states := by
    refine Array.ext hsize fun i hi hi' ↦ ?_
    have hs : d.state? i = some d.states[i] := Array.getElem?_eq_getElem hi
    have hs' : e.state? i = some e.states[i] := Array.getElem?_eq_getElem hi'
    have hl := hlabel i hi
    have hf := hfinal i hi
    rw [label_of_state? hs, label_of_state? hs'] at hl
    rw [isFinal_of_state? hs, isFinal_of_state? hs'] at hf
    have hn : d.states[i].next = e.states[i].next := by
      rw [hd.next_eq hs, he.next_eq hs', halphabet]
      exact List.map_congr_left fun c _ ↦ hnext i hi c
    revert hl hf hn
    cases d.states[i]
    cases e.states[i]
    rintro rfl rfl rfl
    rfl
  cases d
  cases e
  cases halphabet
  cases hstates
  cases hinitial
  rfl

/-! ### Runs -/

/-- A run from a state goes on from its successor. -/
theorem run_cons : d.run i (c :: w) = (d.next? i c).bind fun j ↦ d.run j w := rfl

/-- A run on one character is a transition. -/
theorem run_singleton : d.run i [c] = d.next? i c := by
  rw [run_cons]
  cases d.next? i c <;> rfl

/-- A run goes on with a transition from its end. -/
theorem run_concat {k : Nat} (hw : d.run i w = some j) (hc : d.next? j c = some k) :
    d.run i (w ++ [c]) = some k := by
  rw [run_append, hw, Option.bind_some, run_singleton, hc]

/-- Runs of a well-formed automaton stay in its states. -/
theorem WellFormed.lt_of_run (hd : d.WellFormed) (hi : i < d.numStates) (h : d.run i w = some j) :
    j < d.numStates := by
  induction w generalizing i with
  | nil =>
    cases h
    exact hi
  | cons c w ih =>
    rw [run_cons] at h
    obtain ⟨k, hk, h⟩ := Option.bind_eq_some_iff.mp h
    exact ih (hd.lt_of_next? hk) h

/-- In a complete automaton runs on declared characters are never stuck. -/
theorem WellFormed.exists_run (hd : d.WellFormed) (hcomplete : d.isComplete = true)
    (hi : i < d.numStates) (hw : ∀ c ∈ w, c ∈ d.alphabet) : ∃ j, d.run i w = some j := by
  induction w generalizing i with
  | nil => exact ⟨i, rfl⟩
  | cons c w ih =>
    obtain ⟨k, hk⟩ := hd.isComplete_iff.mp hcomplete i hi c (hw c List.mem_cons_self)
    rw [run_cons, hk]
    exact ih (hd.lt_of_next? hk) fun a ha ↦ hw a (List.mem_cons_of_mem _ ha)

/-- A run that is not stuck has read declared characters only. -/
theorem mem_alphabet_of_run (h : d.run i w = some j) : ∀ c ∈ w, c ∈ d.alphabet := by
  induction w generalizing i with
  | nil => simp
  | cons c w ih =>
    rw [run_cons] at h
    obtain ⟨k, hk, h⟩ := Option.bind_eq_some_iff.mp h
    intro a ha
    rcases List.mem_cons.mp ha with rfl | ha
    · exact (lt_and_mem_of_next? hk).2
    · exact ih h a ha

/-- Whether the run of a word from a state ends in a final state. -/
def acceptsFrom (d : Dfa) (i : Nat) (w : List Char) : Bool := (d.run i w).elim false d.isFinal

/-- A word is accepted from the initial state. -/
theorem accepts_eq_acceptsFrom (d : Dfa) (w : List Char) :
    d.accepts w = d.acceptsFrom d.initial w := rfl

/-- A word is accepted when it leads to a final state. -/
theorem accepts_iff :
    d.accepts w = true ↔ ∃ j, d.run d.initial w = some j ∧ d.isFinal j = true := by
  unfold accepts
  cases d.run d.initial w <;> simp

/-- A state accepts the empty word when it is final. -/
@[simp]
theorem acceptsFrom_nil (d : Dfa) (i : Nat) : d.acceptsFrom i [] = d.isFinal i := rfl

/-- A state accepts what its successors accept. -/
theorem acceptsFrom_cons (d : Dfa) (i : Nat) (c : Char) (w : List Char) :
    d.acceptsFrom i (c :: w) = (d.next? i c).elim false fun j ↦ d.acceptsFrom j w := by
  rw [acceptsFrom, run_cons]
  cases d.next? i c <;> rfl

/-- A word is accepted when what is left of it is accepted from where the run has come to. -/
theorem acceptsFrom_append {u v : List Char} (h : d.run i u = some j) :
    d.acceptsFrom i (u ++ v) = d.acceptsFrom j v := by
  rw [acceptsFrom, run_append, h]
  rfl

/-! ### Bisimulations -/

section Rel

universe u v w z

variable {α : Type u} {β : Type v} {γ : Type w} {δ : Type z} {R : α → β → Prop}

/-- A value is related to a value only. -/
theorem exists_of_rel_some {a : α} {y : Option β} (h : Option.Rel R (some a) y) :
    ∃ b, y = some b ∧ R a b := by
  cases h with
  | some hab => exact ⟨_, rfl, hab⟩

/-- Related values lead on to related values. -/
theorem rel_bind {S : γ → δ → Prop} {x : Option α} {y : Option β} {f : α → Option γ}
    {g : β → Option δ} (h : Option.Rel R x y) (hfg : ∀ a b, R a b → Option.Rel S (f a) (g b)) :
    Option.Rel S (x.bind f) (y.bind g) := by
  cases h with
  | none => exact .none
  | some hab => exact hfg _ _ hab

/-- Related values lead on to the same value if they do so one by one. -/
theorem bind_eq_of_rel {x : Option α} {y : Option β} {f : α → Option γ} {g : β → Option γ}
    (h : Option.Rel R x y) (hfg : ∀ a b, R a b → f a = g b) : x.bind f = y.bind g := by
  cases h with
  | none => rfl
  | some hab => exact hfg _ _ hab

/-- Related values give the same result if they are given the same result one by one. -/
theorem elim_eq_of_rel {x : Option α} {y : Option β} {z : γ} {f : α → γ} {g : β → γ}
    (h : Option.Rel R x y) (hfg : ∀ a b, R a b → f a = g b) : x.elim z f = y.elim z g := by
  cases h with
  | none => rfl
  | some hab => exact hfg _ _ hab

/-- Related values may change places. -/
theorem rel_flip {x : Option α} {y : Option β} (h : Option.Rel R x y) :
    Option.Rel (flip R) y x := by
  cases h with
  | none => exact .none
  | some hab => exact .some hab

/-- Values that are related to the same value are related. -/
theorem rel_join {S : γ → β → Prop} {x : Option α} {y : Option β} {z : Option γ}
    (h : Option.Rel R x y) (h' : Option.Rel S z y) :
    Option.Rel (fun a c ↦ ∃ b, R a b ∧ S c b) x z := by
  cases h with
  | none =>
    cases h'
    exact .none
  | some hab =>
    cases h' with
    | some hcb => exact .some ⟨_, hab, hcb⟩

/-- A value is what a function makes of a related value if the function makes related values. -/
theorem eq_map_of_rel {x : Option α} {y : Option β} {f : α → β} (h : Option.Rel R x y)
    (hf : ∀ a b, x = some a → R a b → f a = b) : y = x.map f := by
  cases h with
  | none => rfl
  | some hab => rw [Option.map_some, hf _ _ rfl hab]

end Rel

/-- A relation between the states of two automata that finality and the successors respect. -/
structure Bisimulation (R : Nat → Nat → Prop) (d e : Dfa) : Prop where
  isFinal_eq : ∀ i j, R i j → d.isFinal i = e.isFinal j
  next : ∀ i j, R i j → ∀ c, Option.Rel R (d.next? i c) (e.next? j c)

namespace Bisimulation

variable {R : Nat → Nat → Prop}

/-- Related states may change places. -/
theorem flip (h : Bisimulation R d e) : Bisimulation (flip R) e d := by
  constructor
  · intro j i hij
    exact (h.isFinal_eq i j hij).symm
  · intro j i hij c
    exact rel_flip (h.next i j hij c)

/-- States that are related to the same states of a third automaton are related. -/
theorem join {S : Nat → Nat → Prop} {m : Dfa} (h : Bisimulation R d m) (h' : Bisimulation S e m) :
    Bisimulation (fun i j ↦ ∃ k, R i k ∧ S j k) d e := by
  constructor
  · rintro i j ⟨k, hik, hjk⟩
    rw [h.isFinal_eq i k hik, h'.isFinal_eq j k hjk]
  · rintro i j ⟨k, hik, hjk⟩ c
    exact rel_join (h.next i k hik c) (h'.next j k hjk c)

/-- Related states have related runs. -/
theorem run (h : Bisimulation R d e) (hij : R i j) (w : List Char) :
    Option.Rel R (d.run i w) (e.run j w) := by
  induction w generalizing i j with
  | nil => exact .some hij
  | cons c w ih => exact rel_bind (h.next i j hij c) fun _ _ hnext ↦ ih hnext

/-- Related states accept the same words. -/
theorem acceptsFrom_eq (h : Bisimulation R d e) (hij : R i j) (w : List Char) :
    d.acceptsFrom i w = e.acceptsFrom j w :=
  elim_eq_of_rel (h.run hij w) h.isFinal_eq

/-- Automata with related initial states accept the same words. -/
theorem accepts_eq (h : Bisimulation R d e) (hinitial : R d.initial e.initial) (w : List Char) :
    d.accepts w = e.accepts w := h.acceptsFrom_eq hinitial w

/-- A word that leads to a state leads to the state that is related to it. -/
theorem run_eq_some (h : Bisimulation R d e) (hright : Relator.RightUnique R) {i' j' : Nat}
    (hij : R i j) (hij' : R i' j') (hw : d.run i w = some i') : e.run j w = some j' := by
  have hrun := h.run hij w
  rw [hw] at hrun
  obtain ⟨k, hk, hik⟩ := exists_of_rel_some hrun
  rw [hk, hright hik hij']

/-- A state is complete if it is related to a state of a complete automaton. -/
theorem isComplete (h : Bisimulation R d e) (hd : d.WellFormed) (he : e.WellFormed)
    (halphabet : ∀ c ∈ e.alphabet, c ∈ d.alphabet)
    (honto : ∀ j < e.numStates, ∃ i < d.numStates, R i j) (hcomplete : d.isComplete = true) :
    e.isComplete = true := by
  rw [he.isComplete_iff]
  intro j hj c hc
  obtain ⟨i, hi, hij⟩ := honto j hj
  obtain ⟨i', hi'⟩ := hd.isComplete_iff.mp hcomplete i hi c (halphabet c hc)
  have hnext := h.next i j hij c
  rw [hi'] at hnext
  obtain ⟨j', hj', _⟩ := exists_of_rel_some hnext
  exact ⟨j', hj'⟩

end Bisimulation

/-! ### Two automata for one language -/

instance (d : Dfa) : Decidable d.WellFormed :=
  decidable_of_iff (d.initial < d.states.size ∧ (∀ s ∈ d.states, s.next.length = d.alphabet.size) ∧
    ∀ s ∈ d.states, ∀ t ∈ s.next, ∀ j ∈ t, j < d.states.size)
    ⟨fun h ↦ ⟨h.1, h.2.1, fun s hs j hj ↦ h.2.2 s hs (some j) hj j rfl⟩,
      fun h ↦ ⟨h.1, h.2, fun s hs t ht j hj ↦ h.3 s hs j (by cases hj; exact ht)⟩⟩

/-- A partial automaton for the words `a`, `ab`, `abb`, …, with two states where one would do and
a state to which no word leads. -/
def aThenBs : Dfa where
  alphabet := .ofSet (.ofList ['a', 'b'])
  states := #[⟨"start", false, [some 1, none]⟩, ⟨"even", true, [none, some 2]⟩,
    ⟨"odd", true, [none, some 1]⟩, ⟨"lost", false, [some 0, some 3]⟩]
  initial := 0

/-- A complete automaton for the same words, with other numbers and another order of the
characters. -/
def aThenBsComplete : Dfa where
  alphabet := .ofSet (.ofList ['b', 'a'])
  states := #[⟨"sink", false, [some 0, some 0]⟩, ⟨"end", true, [some 1, some 0]⟩,
    ⟨"begin", false, [some 0, some 1]⟩]
  initial := 2

end LanguageTheory.Dfa
