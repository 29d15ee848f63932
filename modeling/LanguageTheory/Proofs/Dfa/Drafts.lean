import LanguageTheory.Proofs.AutomatonDraft
import LanguageTheory.Proofs.Nfa.DeterministicRuns

/-!
# Deterministic automata of drafts

A draft has an automaton when it declares what it uses. It has a deterministic one when, besides, it
marks one state as initial and its transitions read a character each and leave no choice; how often
and in which order it lists its parts does not matter. The deterministic automaton has the
transitions that are listed, as the nondeterministic one has, so the two accept the same words.
-/

namespace LanguageTheory

/-- Transitions that read a character each, and of which no two lead from one state on the same
character to different states. -/
structure Symbol.Deterministic {α : Type} (moves : List (α × Symbol × α)) : Prop where
  reads : ∀ x s y, (x, s, y) ∈ moves → ∃ c, s = .char c
  unique : ∀ x s y z, (x, s, y) ∈ moves → (x, s, z) ∈ moves → y = z

namespace AutomatonDraft

/-- The characters of a draft are distinct and not `ε`, and every state and every character that it
uses is declared. -/
structure IsDeclared (d : AutomatonDraft) : Prop where
  nodup_alphabet : d.alphabet.Nodup
  epsilon_notMem : epsilonChar ∉ d.alphabet
  initial : ∀ p ∈ d.initial, p ∈ d.states
  accepting : ∀ p ∈ d.accepting, p ∈ d.states
  ends : ∀ p s q, (p, s, q) ∈ d.transitions → p ∈ d.states ∧ q ∈ d.states
  reads : ∀ p c q, (p, .char c, q) ∈ d.transitions → c ∈ d.alphabet

/-- A draft that declares what it uses, marks one state as initial and leaves no choice. -/
structure IsDeterministic (d : AutomatonDraft) : Prop extends IsDeclared d where
  oneInitial : ∃ p ∈ d.initial, ∀ q ∈ d.initial, q = p
  moves : Symbol.Deterministic d.transitions

/-- A deterministic automaton has the parts that a draft lists, each of them once. -/
structure Describes (d : AutomatonDraft) (e : Dfa) : Prop where
  alphabet : e.alphabet.toList = d.alphabet
  labels : e.states.toList.map Dfa.State.label = (OrderedSet.ofList d.states).toList
  initial : ∀ p, p ∈ d.initial ↔ e.findLabel? p = some e.initial
  accepting : ∀ p, p ∈ d.accepting ↔ ∃ i, e.findLabel? p = some i ∧ e.isFinal i = true
  transitions : ∀ p c q, (p, .char c, q) ∈ d.transitions ↔
    ∃ i j, e.findLabel? p = some i ∧ e.next? i c = some j ∧ e.findLabel? q = some j

variable {d : AutomatonDraft} {n : Nfa} {e : Dfa} {s : Symbol} {i j : Nat} {p : String}

/-! ### Which drafts have an automaton -/

/-- A draft with an automaton declares what it uses. -/
theorem isDeclared_of_check (h : d.check = .ok n) : d.IsDeclared := by
  obtain ⟨ha, hlabels, hdelta, ⟨is, his, _⟩, js, hjs, _⟩ := check_eq_ok_iff.mp h
  have hlabel {p : String} : p ∈ n.labels ↔ p ∈ d.states := by
    rw [hlabels, OrderedSet.mem_ofList]
  have hchars := (Alphabet.ofChars_eq_ok_iff.mp ha).1
  have hmoves := exists_foldlM_addTransition_eq_ok_iff.mp ⟨_, hdelta⟩
  obtain ⟨hnodup, hepsilon⟩ := Alphabet.exists_ofChars_eq_ok_iff.mp ⟨_, ha⟩
  exact {
    nodup_alphabet := hnodup
    epsilon_notMem := hepsilon
    initial := fun p hp ↦ hlabel.mp (exists_mapM_stateId_eq_ok_iff.mp ⟨is, his⟩ p hp)
    accepting := fun p hp ↦ hlabel.mp (exists_mapM_stateId_eq_ok_iff.mp ⟨js, hjs⟩ p hp)
    ends := fun p s q hmove ↦
      ⟨hlabel.mp (hmoves _ hmove).1, hlabel.mp (hmoves _ hmove).2.1⟩
    reads := fun p c q hmove ↦ by
      rw [← hchars, Alphabet.mem_toList]
      exact (hmoves _ hmove).2.2 c rfl }

/-- A draft that declares what it uses has an automaton. -/
theorem IsDeclared.exists_check_eq_ok (h : d.IsDeclared) : ∃ n, d.check = .ok n := by
  have hlabel {p : String} : p ∈ OrderedSet.ofList d.states ↔ p ∈ d.states := OrderedSet.mem_ofList
  obtain ⟨a, ha⟩ := Alphabet.exists_ofChars_eq_ok_iff.mpr ⟨h.nodup_alphabet, h.epsilon_notMem⟩
  have hchars := (Alphabet.ofChars_eq_ok_iff.mp ha).1
  obtain ⟨is, his⟩ := exists_mapM_stateId_eq_ok_iff.mpr fun p hp ↦ hlabel.mpr (h.initial p hp)
  obtain ⟨js, hjs⟩ := exists_mapM_stateId_eq_ok_iff.mpr fun p hp ↦ hlabel.mpr (h.accepting p hp)
  obtain ⟨delta, hdelta⟩ : ∃ delta,
      d.transitions.foldlM (addTransition a (.ofList d.states)) ∅ = .ok delta := by
    refine exists_foldlM_addTransition_eq_ok_iff.mpr fun ⟨p, s, q⟩ hmove ↦ ?_
    obtain ⟨hp, hq⟩ := h.ends p s q hmove
    refine ⟨hlabel.mpr hp, hlabel.mpr hq, fun c hs ↦ ?_⟩
    cases hs
    rw [← Alphabet.mem_toList, hchars]
    exact h.reads p c q hmove
  exact ⟨⟨a, .ofList d.states, delta, .ofList is, .ofList js⟩,
    check_eq_ok_iff.mpr ⟨ha, rfl, hdelta, ⟨is, his, rfl⟩, js, hjs, rfl⟩⟩

/-- The automaton has one initial state when one label is marked as initial. -/
theorem exists_uniqueInitial_eq_ok_iff (h : d.check = .ok n) :
    (∃ i, uniqueInitial n.initial = .ok i) ↔ ∃ p ∈ d.initial, ∀ q ∈ d.initial, q = p := by
  simp only [uniqueInitial_eq_ok_iff]
  constructor
  · rintro ⟨i, hi⟩
    obtain ⟨p, hp, hpi⟩ := (mem_initial_iff h).mp ((hi i).mpr rfl)
    refine ⟨p, hp, fun q hq ↦ ?_⟩
    obtain ⟨k, hk, hqk⟩ := (label_mem_initial_iff h).mp hq
    rw [(hi k).mp hk] at hqk
    exact OrderedSet.eq_of_idxOf?_eq_some hqk hpi
  · rintro ⟨p, hp, hunique⟩
    obtain ⟨i, hi, hpi⟩ := (label_mem_initial_iff h).mp hp
    refine ⟨i, fun j ↦ ⟨fun hj ↦ ?_, fun hj ↦ hj ▸ hi⟩⟩
    obtain ⟨q, hq, hqj⟩ := (mem_initial_iff h).mp hj
    rw [hunique q hq, hpi] at hqj
    exact (Option.some.inj hqj).symm

/-- Nothing stands in the way of a deterministic automaton when the transitions leave no choice. -/
theorem conflict?_eq_none_iff (hn : n.delta.Filled) :
    conflict? n = none ↔ Symbol.Deterministic n.transitions := by
  unfold conflict?
  rw [List.findSome?_eq_none_iff]
  constructor
  · intro h
    have hentry {i : Nat} {s : Symbol} {targets : OrderedSet Nat}
        (ht : n.targets? i s = some targets) : ∃ c, s = .char c ∧ targets.size ≤ 1 := by
      have he := h _ (Table.get?_eq_some_iff.mp ht)
      cases s with
      | epsilon => cases he
      | char c =>
        dsimp only at he
        split at he
        · cases he
        · next hsize => exact ⟨c, rfl, Nat.le_of_not_lt hsize⟩
    constructor
    · intro i s j hj
      obtain ⟨targets, ht, _⟩ := Nfa.mem_transitions.mp hj
      obtain ⟨c, hs, _⟩ := hentry ht
      exact ⟨c, hs⟩
    · intro i s j k hj hk
      obtain ⟨targets, ht, hj⟩ := Nfa.mem_transitions.mp hj
      obtain ⟨targets', ht', hk⟩ := Nfa.mem_transitions.mp hk
      obtain rfl := Option.some.inj (ht.symm.trans ht')
      obtain ⟨_, _, hsize⟩ := hentry ht
      exact OrderedSet.size_le_one_iff.mp hsize j hj k hk
  · rintro h ⟨⟨i, s⟩, targets⟩ he
    have ht : n.targets? i s = some targets := Table.get?_eq_some_iff.mpr he
    have hmove {j : Nat} (hj : j ∈ targets) : (i, s, j) ∈ n.transitions :=
      Nfa.mem_transitions.mpr ⟨targets, ht, hj⟩
    -- A set of targets that were empty would say nothing about its symbol.
    obtain ⟨j, hj⟩ := hn _ _ ht
    obtain ⟨c, rfl⟩ := h.reads i s j (hmove hj)
    refine if_neg (Nat.not_lt_of_le (OrderedSet.size_le_one_iff.mpr fun x hx y hy ↦ ?_))
    exact h.unique i _ x y (hmove hx) (hmove hy)

/-- Transitions leave no choice between numbers when they leave none between labels. -/
theorem deterministic_transitions_iff (h : d.check = .ok n) :
    Symbol.Deterministic n.transitions ↔ Symbol.Deterministic d.transitions := by
  constructor
  · intro hn
    constructor
    · intro p s q hq
      obtain ⟨i, j, _, _, hj⟩ := (mem_iff_exists_numbers h).mp hq
      exact hn.reads i s j hj
    · intro p s q r hq hr
      obtain ⟨i, j, hpi, hqj, hj⟩ := (mem_iff_exists_numbers h).mp hq
      obtain ⟨i', k, hpi', hrk, hk⟩ := (mem_iff_exists_numbers h).mp hr
      obtain rfl := Option.some.inj (hpi.symm.trans hpi')
      rw [← hn.unique i s j k hj hk] at hrk
      exact OrderedSet.eq_of_idxOf?_eq_some hqj hrk
  · intro hd
    constructor
    · intro i s j hj
      obtain ⟨p, q, hq, _⟩ := (mem_transitions_iff h).mp hj
      exact hd.reads p s q hq
    · intro i s j k hj hk
      obtain ⟨p, q, hq, hpi, hqj⟩ := (mem_transitions_iff h).mp hj
      obtain ⟨p', r, hr, hpi', hrk⟩ := (mem_transitions_iff h).mp hk
      obtain rfl := OrderedSet.eq_of_idxOf?_eq_some hpi hpi'
      rw [← hd.unique p s q r hq hr, hqj] at hrk
      exact Option.some.inj hrk

/-- A draft has a deterministic automaton when it is deterministic. -/
theorem exists_toDfa_eq_ok_iff : (∃ e, d.toDfa = .ok e) ↔ d.IsDeterministic := by
  simp only [toDfa_eq_ok_iff]
  constructor
  · rintro ⟨_, n, i, hn, hi, hconflict, _⟩
    have hmoves := (conflict?_eq_none_iff (filled_of_check hn)).mp hconflict
    exact {
      toIsDeclared := isDeclared_of_check hn
      oneInitial := (exists_uniqueInitial_eq_ok_iff hn).mp ⟨i, hi⟩
      moves := (deterministic_transitions_iff hn).mp hmoves }
  · intro h
    obtain ⟨n, hn⟩ := h.toIsDeclared.exists_check_eq_ok
    obtain ⟨i, hi⟩ := (exists_uniqueInitial_eq_ok_iff hn).mpr h.oneInitial
    have hmoves := (deterministic_transitions_iff hn).mpr h.moves
    exact ⟨_, n, i, hn, hi, (conflict?_eq_none_iff (filled_of_check hn)).mpr hmoves, rfl⟩

/-! ### The automaton of a draft -/

/-- When transitions leave no choice, the first target is the only one. -/
theorem bind_first?_eq_some_iff (hmoves : Symbol.Deterministic n.transitions) :
    (n.targets? i s).bind OrderedSet.first? = some j ↔ (i, s, j) ∈ n.transitions := by
  rw [Option.bind_eq_some_iff]
  constructor
  · rintro ⟨targets, ht, hj⟩
    exact Nfa.mem_transitions.mpr ⟨targets, ht, List.mem_of_head? hj⟩
  · intro hmove
    obtain ⟨targets, ht, hj⟩ := Nfa.mem_transitions.mp hmove
    refine ⟨targets, ht, ?_⟩
    cases hfirst : targets.first? with
    | none =>
      rw [← OrderedSet.mem_toList, List.head?_eq_none_iff.mp hfirst] at hj
      cases hj
    | some k =>
      have hk := Nfa.mem_transitions.mpr ⟨targets, ht, List.mem_of_head? hfirst⟩
      rw [hmoves.unique i s k j hk hmove]

/-- When transitions leave no choice, the automaton mirrors that of the first targets. -/
theorem mirrors_firstTargets (hn : n.IsLabelled) (hread : n.ReadsDeclared)
    (hinitial : ∀ j, j ∈ n.initial ↔ j = i) (hmoves : Symbol.Deterministic n.transitions) :
    n.Mirrors (firstTargets n i) where
  alphabet := rfl
  initial := hinitial
  accepting := by
    intro j
    by_cases hj : j < n.numStates
    · obtain ⟨state, hstate, hfinal, _⟩ := exists_state?_firstTargets i hj
      rw [Dfa.isFinal_of_state? hstate, hfinal]
      exact OrderedSet.contains_iff.symm
    · refine iff_of_false (fun h ↦ hj ((Nfa.isLabelled_iff.mp hn).2.1 j h)) fun h ↦ hj ?_
      rw [← numStates_firstTargets n i]
      exact Dfa.lt_of_isFinal h
  transitions := by
    intro j s k
    constructor
    · intro hmove
      obtain ⟨c, rfl⟩ := hmoves.reads j s k hmove
      obtain ⟨state, hstate, _, hnext⟩ :=
        exists_state?_firstTargets i (hn.lt_of_mem_transitions hmove).1
      refine ⟨c, rfl, ?_⟩
      rw [Dfa.next?_of_next_eq hstate hnext (hread j c k hmove)]
      exact (bind_first?_eq_some_iff hmoves).mpr hmove
    · rintro ⟨c, rfl, hk⟩
      obtain ⟨hj, hc⟩ := Dfa.lt_and_mem_of_next? hk
      rw [numStates_firstTargets] at hj
      obtain ⟨state, hstate, _, hnext⟩ := exists_state?_firstTargets i hj
      rw [Dfa.next?_of_next_eq hstate hnext hc] at hk
      exact (bind_first?_eq_some_iff hmoves).mp hk

/-- The states have the labels of the draft, in their order. -/
theorem map_label_firstTargets (n : Nfa) (i : Nat) :
    (firstTargets n i).states.toList.map Dfa.State.label = n.labels.toList := by
  refine List.ext_getElem? fun k ↦ ?_
  rw [firstTargets, List.toList_toArray, List.getElem?_map, List.getElem?_mapIdx, Option.map_map]
  exact Option.map_id'

/-- An automaton has the parts of a draft when the automaton of the draft mirrors it and its states
have the same labels. -/
theorem describes_of_mirrors (h : d.check = .ok n) (hmirrors : n.Mirrors e)
    (hlabels : e.states.toList.map Dfa.State.label = n.labels.toList) : d.Describes e := by
  have hfind (p : String) : e.findLabel? p = n.findLabel? p := by
    rw [e.findLabel?_eq_idxOf? p, hlabels]
    rfl
  obtain ⟨ha, hdeclared, _⟩ := check_eq_ok h
  constructor
  · rw [← hmirrors.alphabet]
    exact (Alphabet.ofChars_eq_ok_iff.mp ha).1
  · rw [hlabels, hdeclared]
  · intro p
    simp only [label_mem_initial_iff h, hmirrors.initial, hfind, exists_eq_left]
  · intro p
    simp only [label_mem_accepting_iff h, hmirrors.accepting, hfind, and_comm]
  · intro p c q
    rw [mem_iff_exists_numbers h]
    simp only [hmirrors.transitions, hfind]
    constructor
    · rintro ⟨i, j, hi, hj, _, hc, hmove⟩
      cases hc
      exact ⟨i, j, hi, hmove, hj⟩
    · rintro ⟨i, j, hi, hmove, hj⟩
      exact ⟨i, j, hi, hj, c, rfl, hmove⟩

/-- A draft has a deterministic automaton exactly when it is deterministic. That automaton has the
parts that the draft lists, and the nondeterministic automaton of the draft exists as well and
accepts the same words. -/
theorem exists_toDfa_iff_and_describes (d : AutomatonDraft) :
    ((∃ e, d.toDfa = .ok e) ↔ d.IsDeterministic) ∧
      ∀ e, d.toDfa = .ok e → e.WellFormed ∧ d.Describes e ∧
        ∃ n, d.toNfa = .ok n ∧ ∀ w, n.accepts w = e.accepts w := by
  refine ⟨exists_toDfa_eq_ok_iff, fun e he ↦ ?_⟩
  obtain ⟨n, i, hn, hi, hconflict, rfl⟩ := toDfa_eq_ok_iff.mp he
  have hinitial := uniqueInitial_eq_ok_iff.mp hi
  have hmirrors : n.Mirrors (firstTargets n i) :=
    mirrors_firstTargets (isLabelled_of_check hn) (readsDeclared_of_check hn) hinitial
      ((conflict?_eq_none_iff (filled_of_check hn)).mp hconflict)
  refine ⟨wellFormed_of_toDfa he, describes_of_mirrors hn hmirrors (map_label_firstTargets n i), ?_⟩
  exact ⟨n, toNfa_eq_ok_iff.mpr ⟨hn, i, (hinitial i).mpr rfl⟩, hmirrors.accepts_eq⟩

/-- A draft that lists states, marks and transitions more than once. -/
def repeated : AutomatonDraft where
  alphabet := ['a', 'b']
  states := ["q", "p", "q"]
  initial := ["p", "p"]
  accepting := ["q"]
  transitions := [("p", .char 'b', "p"), ("p", .char 'a', "q"), ("q", .char 'a', "q"),
    ("p", .char 'a', "q")]

/-- The automaton of the draft, in which the state that is declared first has the number 0. -/
def bsThenAs : Dfa where
  alphabet := .ofSet (.ofList ['a', 'b'])
  states := #[⟨"q", true, [some 0, none]⟩, ⟨"p", false, [some 0, some 1]⟩]
  initial := 1

/-- What is listed more than once is there once. -/
theorem describes_bsThenAs :
    repeated.toDfa = .ok bsThenAs ∧ bsThenAs.WellFormed ∧ repeated.Describes bsThenAs ∧
      ∃ n, repeated.toNfa = .ok n ∧ ∀ w, n.accepts w = bsThenAs.accepts w := by
  have h : repeated.toDfa = .ok bsThenAs := by decide
  exact ⟨h, (exists_toDfa_iff_and_describes repeated).2 bsThenAs h⟩

end AutomatonDraft

end LanguageTheory
