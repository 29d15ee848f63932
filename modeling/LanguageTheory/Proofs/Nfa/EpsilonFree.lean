import LanguageTheory.Nfa.Conversions
import LanguageTheory.Proofs.Collections.Table
import LanguageTheory.Proofs.Nfa.Paths

/-!
# Reading without skipping

A transition of the automaton without transitions on the empty word stands for all paths with one
character, so paths with more characters are the same in both automata. A path without characters
is no longer one; the initial states from which it was accepted are accepting instead.
-/

namespace LanguageTheory.Nfa

variable {n : Nfa} {i j : Nat} {c : Char} {s : Symbol} {w : List Char}

/-! ### Automata without transitions on the empty word -/

/-- Some transition reads the empty word when it has targets, even if there are none of them. -/
theorem hasEpsilonMoves_iff :
    n.hasEpsilonMoves = true ↔ ∃ i targets, n.targets? i .epsilon = some targets := by
  rw [hasEpsilonMoves, List.any_eq_true]
  constructor
  · rintro ⟨⟨i, s⟩, hk, hs⟩
    cases s with
    | epsilon => exact ⟨i, Table.mem_keys_iff.mp hk⟩
    | char => cases hs
  · rintro ⟨i, targets, ht⟩
    exact ⟨(i, .epsilon), Table.mem_keys_iff.mpr ⟨targets, ht⟩, rfl⟩

/-- Without transitions on the empty word there is none to be taken. -/
theorem epsilon_notMem_transitions (hn : n.hasEpsilonMoves = false) :
    (i, Symbol.epsilon, j) ∉ n.transitions := by
  intro h
  obtain ⟨targets, ht, _⟩ := mem_transitions.mp h
  rw [hasEpsilonMoves_iff.mpr ⟨i, targets, ht⟩] at hn
  cases hn

/-! ### Transitions -/

/-- The listed targets are those that are read into, if there are any. -/
theorem mem_closedMoves {targets : OrderedSet Nat} : ((i, s), targets) ∈ n.closedMoves ↔
    i < n.numStates ∧ ∃ c ∈ n.alphabet, s = .char c ∧
      targets = n.read c (n.epsilonClosure (OrderedSet.singleton i)) ∧
      targets.isEmpty = false := by
  rw [closedMoves, List.mem_flatMap]
  constructor
  · rintro ⟨k, hk, h⟩
    obtain ⟨c, hc, h⟩ := List.mem_filterMap.mp h
    dsimp only at h
    split at h
    · cases h
    · next hne =>
      cases h
      exact ⟨List.mem_range.mp hk, c, hc, rfl, rfl, Bool.eq_false_iff.mpr hne⟩
  · rintro ⟨hi, c, hc, rfl, rfl, hne⟩
    refine ⟨i, List.mem_range.mpr hi, List.mem_filterMap.mpr ⟨c, hc, ?_⟩⟩
    exact if_neg (Bool.eq_false_iff.mp hne)

/-- A state and a symbol have the targets that are listed for them. -/
theorem targets?_removeEpsilon_eq_some_iff {targets : OrderedSet Nat} :
    n.removeEpsilon.targets? i s = some targets ↔ ((i, s), targets) ∈ n.closedMoves := by
  refine Table.get?_ofList_iff fun ⟨i, s⟩ targets others ht ho ↦ ?_
  obtain ⟨_, c, _, hs, rfl, _⟩ := mem_closedMoves.mp ht
  obtain ⟨_, d, _, hs', rfl, _⟩ := mem_closedMoves.mp ho
  rw [hs] at hs'
  cases hs'
  rfl

/-- A transition stands for the paths with one character. -/
theorem mem_transitions_removeEpsilon : (i, s, j) ∈ n.removeEpsilon.transitions ↔
    i < n.numStates ∧ ∃ c ∈ n.alphabet, s = .char c ∧ n.Path i [c] j := by
  have hread {c : Char} : j ∈ n.read c (n.epsilonClosure (OrderedSet.singleton i)) ↔
      n.Path i [c] j := by
    rw [mem_read_iff_path fun _ ↦ mem_epsilonClosure_iff]
    simp only [OrderedSet.mem_singleton, exists_eq_left, List.nil_append]
  rw [mem_transitions]
  simp only [targets?_removeEpsilon_eq_some_iff, mem_closedMoves]
  constructor
  · rintro ⟨_, ⟨hi, c, hc, hs, rfl, _⟩, hj⟩
    exact ⟨hi, c, hc, hs, hread.mp hj⟩
  · rintro ⟨hi, c, hc, hs, hpath⟩
    have hj := hread.mpr hpath
    refine ⟨_, ⟨hi, c, hc, hs, rfl, Bool.eq_false_iff.mpr fun hempty ↦ ?_⟩, hj⟩
    exact OrderedSet.isEmpty_iff.mp hempty j hj

/-- Every transition reads a character. -/
theorem hasEpsilonMoves_removeEpsilon (n : Nfa) : n.removeEpsilon.hasEpsilonMoves = false := by
  rw [Bool.eq_false_iff]
  intro h
  obtain ⟨i, targets, ht⟩ := hasEpsilonMoves_iff.mp h
  obtain ⟨_, c, _, hs, _⟩ := mem_closedMoves.mp (targets?_removeEpsilon_eq_some_iff.mp ht)
  cases hs

/-- Every transition reads a declared character. -/
theorem readsDeclared_removeEpsilon (n : Nfa) : n.removeEpsilon.ReadsDeclared := by
  intro i c j h
  obtain ⟨_, a, ha, hs, _⟩ := mem_transitions_removeEpsilon.mp h
  cases hs
  exact ha

/-- The accepting states, and the initial states from which the empty word is accepted. -/
theorem mem_accepting_removeEpsilon : j ∈ n.removeEpsilon.accepting ↔
    j ∈ n.accepting ∨ j ∈ n.initial ∧ ∃ k ∈ n.accepting, n.Path j [] k := by
  have hclosure : OrderedSet.Disjoint (n.epsilonClosure (OrderedSet.singleton j)) n.accepting ↔
      ∀ k, n.Path j [] k → k ∉ n.accepting := by
    refine forall_congr' fun k ↦ imp_congr_left ?_
    rw [OrderedSet.mem_toList, mem_epsilonClosure_iff]
    simp only [OrderedSet.mem_singleton, exists_eq_left]
  unfold removeEpsilon
  rw [OrderedSet.mem_insertMany, List.mem_filter, Bool.not_eq_true', decide_eq_false_iff_not,
    hclosure, OrderedSet.mem_toList]
  simp only [not_forall, not_not, exists_prop, and_comm]

/-- The states with labels are the same. -/
theorem IsLabelled.removeEpsilon (hn : n.IsLabelled) : n.removeEpsilon.IsLabelled := by
  have ⟨hinitial, haccepting, _⟩ := isLabelled_iff.mp hn
  refine isLabelled_iff.mpr ⟨hinitial, fun j hj ↦ ?_, fun i s targets ht ↦ ?_⟩
  · rcases mem_accepting_removeEpsilon.mp hj with hj | ⟨hj, _⟩
    · exact haccepting j hj
    · exact hinitial j hj
  · have hi := (mem_closedMoves.mp (targets?_removeEpsilon_eq_some_iff.mp ht)).1
    refine ⟨hi, fun j hj ↦ ?_⟩
    obtain ⟨_, c, _, _, hpath⟩ :=
      mem_transitions_removeEpsilon.mp (mem_transitions.mpr ⟨targets, ht, hj⟩)
    exact hn.lt_of_path hpath hi

/-! ### Paths and accepted words -/

/-- Paths that do not skip are paths. -/
theorem Path.of_removeEpsilon (h : n.removeEpsilon.Path i w j) : n.Path i w j := by
  induction h with
  | refl i => exact .refl i
  | skip h _ _ =>
    exact absurd h (epsilon_notMem_transitions (hasEpsilonMoves_removeEpsilon n))
  | read h _ ih =>
    obtain ⟨_, c, _, hs, hpath⟩ := mem_transitions_removeEpsilon.mp h
    cases hs
    exact hpath.append ih

/-- A state from which a path that does not skip reads on has a label. -/
theorem Path.lt_of_removeEpsilon (h : n.removeEpsilon.Path i (c :: w) j) : i < n.numStates := by
  cases h with
  | skip h _ => exact absurd h (epsilon_notMem_transitions (hasEpsilonMoves_removeEpsilon n))
  | read h _ => exact (mem_transitions_removeEpsilon.mp h).1

/-- Paths with declared characters need not skip, unless they have no character at all. -/
theorem Path.removeEpsilon (hn : n.IsLabelled) (hi : i < n.numStates)
    (hw : ∀ a ∈ c :: w, a ∈ n.alphabet) (h : n.Path i (c :: w) j) :
    n.removeEpsilon.Path i (c :: w) j := by
  induction w generalizing i c with
  | nil =>
    have hc := hw c List.mem_cons_self
    exact .read (mem_transitions_removeEpsilon.mpr ⟨hi, c, hc, rfl, h⟩) (.refl j)
  | cons a w ih =>
    rw [List.forall_mem_cons] at hw
    obtain ⟨k, hik, hkj⟩ := Path.exists_of_append (u := [c]) h
    have hk := hn.lt_of_path hik hi
    exact .read (mem_transitions_removeEpsilon.mpr ⟨hi, c, hw.1, rfl, hik⟩) (ih hk hw.2 hkj)

/-- Without transitions on the empty word the same words are accepted. -/
theorem accepts_removeEpsilon (hn : n.IsLabelled) (w : List Char) :
    n.removeEpsilon.accepts w = n.accepts w := by
  rw [Bool.eq_iff_iff, accepts_iff, accepts_iff]
  refine and_congr_right fun hw ↦ ?_
  constructor
  · rintro ⟨j, hj, i, hi, hij⟩
    have hend : ∃ k ∈ n.accepting, n.Path j [] k := by
      rcases mem_accepting_removeEpsilon.mp hj with hj | ⟨_, hj⟩
      · exact ⟨j, hj, .refl j⟩
      · exact hj
    obtain ⟨k, hk, hjk⟩ := hend
    have hik := hij.of_removeEpsilon.append hjk
    rw [List.append_nil] at hik
    exact ⟨k, hk, i, hi, hik⟩
  · rintro ⟨j, hj, i, hi, hij⟩
    cases w with
    | nil => exact ⟨i, mem_accepting_removeEpsilon.mpr (.inr ⟨hi, j, hj, hij⟩), i, hi, .refl i⟩
    | cons c w =>
      have hlt := (isLabelled_iff.mp hn).1 i hi
      exact ⟨j, mem_accepting_removeEpsilon.mpr (.inl hj), i, hi,
        hij.removeEpsilon hn hlt hw⟩

/-- No transition is on the empty word, the states with their labels, the alphabet and the initial
states are the same, and so are the accepted words. -/
theorem epsilonFree_and_accepts_removeEpsilon (hn : n.IsLabelled) :
    n.removeEpsilon.hasEpsilonMoves = false ∧
      (∀ i j, (i, Symbol.epsilon, j) ∉ n.removeEpsilon.transitions) ∧
      n.removeEpsilon.labels = n.labels ∧ n.removeEpsilon.IsLabelled ∧
      n.removeEpsilon.alphabet = n.alphabet ∧ n.removeEpsilon.initial = n.initial ∧
      ∀ w, n.removeEpsilon.accepts w = n.accepts w := by
  have hmoves := hasEpsilonMoves_removeEpsilon n
  exact ⟨hmoves, fun _ _ ↦ epsilon_notMem_transitions hmoves, rfl, hn.removeEpsilon, rfl, rfl,
    accepts_removeEpsilon hn⟩

/-- An automaton with two initial states, one of which reaches the accepting state on a cycle of
transitions that read nothing. -/
theorem epsilonFree_and_accepts_removeEpsilon_loops :
    loops.IsLabelled ∧ loops.hasEpsilonMoves = true ∧
      loops.removeEpsilon.hasEpsilonMoves = false ∧
      (∀ w, loops.removeEpsilon.accepts w = loops.accepts w) ∧
      loops.removeEpsilon.accepts [] = true := by
  have hn : loops.IsLabelled := by decide
  obtain ⟨hmoves, _, _, _, _, _, hwords⟩ := epsilonFree_and_accepts_removeEpsilon hn
  have hpath : loops.Path 0 [] 1 := .skip (by decide) (.refl 1)
  have hempty : loops.accepts [] = true :=
    accepts_iff.mpr ⟨by simp, 1, by decide, 0, by decide, hpath⟩
  exact ⟨hn, by decide, hmoves, hwords, (hwords []).trans hempty⟩

end LanguageTheory.Nfa
