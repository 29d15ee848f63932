import LanguageTheory.AutomatonDraft
import LanguageTheory.Dfa.Product
import LanguageTheory.Nfa.Conversions
import LanguageTheory.Proofs.Dfa.Minimization
import LanguageTheory.Proofs.Grammar.Regular
import LanguageTheory.Proofs.Nfa.DeterministicRuns
import LanguageTheory.Proofs.Nfa.Subsets

/-!
# Deterministic automata read as nondeterministic ones

The paths are the runs, so the words are the same whatever the labels are. Everything else that is
made of the automaton needs a label for each state that is referred to. There is one when different
states have different labels, as they have after minimization; the labels of pairs of states can
coincide although those of the states do not.
-/

namespace LanguageTheory

namespace Dfa

variable {d : Dfa} {i j : Nat} {c : Char} {s : Symbol} {w : List Char}

/-! ### Different labels -/

/-- Different states have different labels. -/
def HasDistinctLabels (d : Dfa) : Prop := (d.states.toList.map State.label).Nodup

instance (d : Dfa) : Decidable d.HasDistinctLabels :=
  inferInstanceAs (Decidable (d.states.toList.map State.label).Nodup)

/-- Labels are different when each is the label of one number. -/
theorem hasDistinctLabels_of_forall
    (h : ∀ i < d.numStates, ∀ j < d.numStates, d.label i = d.label j → i = j) :
    d.HasDistinctLabels := by
  have hlabel {i : Nat} (hi : i < d.states.size) : d.label i = d.states[i].label :=
    label_of_state? (Array.getElem?_eq_getElem hi)
  rw [HasDistinctLabels, List.nodup_iff_pairwise_ne, List.pairwise_iff_getElem]
  intro i j hi hj hij he
  rw [List.length_map, Array.length_toList] at hi hj
  rw [List.getElem_map, List.getElem_map, Array.getElem_toList, Array.getElem_toList,
    ← hlabel hi, ← hlabel hj] at he
  exact Nat.ne_of_lt hij (h i hi j hj he)

/-- Minimal automata have different labels. -/
theorem WellFormed.hasDistinctLabels_minimize (hd : d.WellFormed) :
    d.minimize.HasDistinctLabels := by
  rw [minimize_eq]
  exact hasDistinctLabels_of_forall fun i hi j hj h ↦
    hd.isMinimal_merged.wellFormed.eq_of_label_canonize_eq hi hj h

/-! ### Transitions and paths -/

/-- A state has a successor as its only target. -/
theorem targets?_toNfa_eq_some_iff {targets : OrderedSet Nat} :
    d.toNfa.targets? i s = some targets ↔
      ∃ c j, s = .char c ∧ d.next? i c = some j ∧ targets = OrderedSet.singleton j := by
  rw [Nfa.targets?, toNfa, Table.get?_ofList_iff, List.mem_map]
  · constructor
    · rintro ⟨⟨i, c, j⟩, h, he⟩
      cases he
      exact ⟨c, j, rfl, mem_transitions_iff.mp h, rfl⟩
    · rintro ⟨c, j, rfl, h, rfl⟩
      exact ⟨(i, c, j), mem_transitions_iff.mpr h, rfl⟩
  · intro key targets others ht ho
    obtain ⟨⟨i, c, j⟩, hj, he⟩ := List.mem_map.mp ht
    obtain ⟨⟨i', c', k⟩, hk, he'⟩ := List.mem_map.mp ho
    cases he
    cases he'
    rw [mem_transitions_iff] at hj hk
    rw [hj] at hk
    cases hk
    rfl

/-- The transitions are those of the deterministic automaton. -/
theorem mem_transitions_toNfa :
    (i, s, j) ∈ d.toNfa.transitions ↔ ∃ c, s = .char c ∧ d.next? i c = some j := by
  rw [Nfa.mem_transitions]
  simp only [targets?_toNfa_eq_some_iff]
  constructor
  · rintro ⟨_, ⟨c, k, hs, hk, rfl⟩, hj⟩
    rw [OrderedSet.mem_singleton.mp hj]
    exact ⟨c, hs, hk⟩
  · rintro ⟨c, hs, hj⟩
    exact ⟨_, ⟨c, j, hs, hj, rfl⟩, OrderedSet.mem_singleton.mpr rfl⟩

/-- The automaton mirrors the deterministic one. -/
theorem mirrors_toNfa (d : Dfa) : d.toNfa.Mirrors d where
  alphabet := rfl
  initial _ := OrderedSet.mem_singleton
  accepting _ := OrderedSet.mem_ofList.trans mem_finalStates_iff
  transitions _ _ _ := mem_transitions_toNfa

/-- Every transition reads a declared character. -/
theorem mem_alphabet_of_mem_transitions_toNfa (h : (i, .char c, j) ∈ d.toNfa.transitions) :
    c ∈ d.alphabet := d.mirrors_toNfa.readsDeclared i c j h

/-- The same words are accepted. -/
theorem accepts_toNfa (d : Dfa) (w : List Char) : d.toNfa.accepts w = d.accepts w :=
  d.mirrors_toNfa.accepts_eq w

/-! ### Labels -/

/-- With different labels, every state that is referred to has a label. -/
theorem WellFormed.isLabelled_toNfa (hd : d.WellFormed) (hlabels : d.HasDistinctLabels) :
    d.toNfa.IsLabelled := by
  have hsize : d.toNfa.numStates = d.numStates := by
    change (OrderedSet.ofList (d.states.toList.map State.label)).toList.length = d.states.size
    rw [OrderedSet.toList_ofList_of_nodup hlabels, List.length_map, Array.length_toList]
  rw [Nfa.isLabelled_iff, hsize]
  refine ⟨fun i hi ↦ ?_, fun i hi ↦ ?_, fun i s targets ht ↦ ?_⟩
  · rw [OrderedSet.mem_singleton.mp hi]
    exact hd.initial_lt
  · exact lt_of_isFinal (mem_finalStates_iff.mp (OrderedSet.mem_ofList.mp hi))
  · obtain ⟨c, j, _, hj, rfl⟩ := targets?_toNfa_eq_some_iff.mp ht
    refine ⟨(lt_and_mem_of_next? hj).1, fun k hk ↦ ?_⟩
    rw [OrderedSet.mem_singleton.mp hk]
    exact hd.lt_of_next? hj

section Unlabelled

variable {u : List Char} (hu : d.run d.initial u = some i) (hi : d.toNfa.numStates ≤ i)
include hu hi

/-- The automaton of sets of states is undefined when a run reaches a state without a label. -/
theorem toDfa?_toNfa_eq_none : d.toNfa.toDfa? = none := by
  have hreaches : d.toNfa.Reaches u i :=
    ⟨d.initial, OrderedSet.mem_singleton.mpr rfl, d.mirrors_toNfa.path_iff.mpr hu⟩
  exact Nfa.toDfa?_eq_none (mem_alphabet_of_run hu) hreaches hi

/-- No word is accepted whose run reads on after a state without a label, once the transitions on
the empty word are removed. -/
theorem accepts_removeEpsilon_toNfa_eq_false (c : Char) (v : List Char) :
    d.toNfa.removeEpsilon.accepts (u ++ c :: v) = false := by
  rw [Bool.eq_false_iff]
  intro haccepts
  obtain ⟨j, hj, k, _, hpath⟩ :=
    (Nfa.accepts_iff_spells (Nfa.readsDeclared_removeEpsilon _)).mp haccepts
  obtain rfl : j = d.initial := OrderedSet.mem_singleton.mp hj
  obtain ⟨m, hm, hrest⟩ := hpath.exists_of_append
  have hrun := d.mirrors_toNfa.path_iff.mp hm.of_removeEpsilon
  cases hu.symm.trans hrun
  exact absurd hrest.lt_of_removeEpsilon (Nat.not_lt.mpr hi)

end Unlabelled

/-- The words of a deterministic automaton are those of the nondeterministic one. If every state
that this one refers to has a label, then its automaton of sets of states, its automaton without
transitions on the empty word and its regular grammar exist and have these words as well. With
different labels, as after minimization, this is the case. -/
theorem toNfa_correct (hd : d.WellFormed) :
    (∀ w, d.toNfa.accepts w = d.accepts w) ∧
      (d.HasDistinctLabels → d.toNfa.IsLabelled) ∧
      d.minimize.toNfa.IsLabelled ∧
      (d.toNfa.IsLabelled →
        (∃ e, d.toNfa.toDfa? = some e ∧ ∀ w, e.accepts w = d.accepts w) ∧
        (∀ w, d.toNfa.removeEpsilon.accepts w = d.accepts w) ∧
        ∃ g, RegularGrammar.ofNfa? d.toNfa = some g ∧ ∀ w, g.grammar.accepts w = d.accepts w) := by
  have hread : ∀ i c j, (i, Symbol.char c, j) ∈ d.toNfa.transitions → c ∈ d.toNfa.alphabet :=
    fun _ _ _ h ↦ mem_alphabet_of_mem_transitions_toNfa h
  refine ⟨accepts_toNfa d, hd.isLabelled_toNfa, ?_, fun hlabels ↦ ?_⟩
  · exact hd.isMinimal_minimize.wellFormed.isLabelled_toNfa hd.hasDistinctLabels_minimize
  · simp only [← accepts_toNfa d]
    exact ⟨⟨_, hlabels.toDfa?_eq_some, Nfa.accepts_toDfa _⟩, Nfa.accepts_removeEpsilon hlabels,
      ⟨_, RegularGrammar.ofNfa?_eq_some hlabels, RegularGrammar.accepts_ofNfa hlabels hread⟩⟩

/-- An automaton with different labels, read as a nondeterministic one. -/
theorem toNfa_correct_aThenBs :
    aThenBs.WellFormed ∧ aThenBs.HasDistinctLabels ∧
      (∀ w, aThenBs.toNfa.accepts w = aThenBs.accepts w) ∧
      (∃ e, aThenBs.toNfa.toDfa? = some e ∧ ∀ w, e.accepts w = aThenBs.accepts w) ∧
      (∀ w, aThenBs.toNfa.removeEpsilon.accepts w = aThenBs.accepts w) ∧
      ∃ g, RegularGrammar.ofNfa? aThenBs.toNfa = some g ∧
        ∀ w, g.grammar.accepts w = aThenBs.accepts w := by
  have hd : aThenBs.WellFormed := by decide
  have hlabels : aThenBs.HasDistinctLabels := by decide
  obtain ⟨hwords, hdistinct, _, hconversions⟩ := toNfa_correct hd
  exact ⟨hd, hlabels, hwords, hconversions (hdistinct hlabels)⟩

/-- Draft of an automaton for the words of odd length, with a label that reads like two. -/
def oddDraft : AutomatonDraft where
  alphabet := ['a']
  states := ["x", "x,x"]
  initial := ["x"]
  accepting := ["x,x"]
  transitions := [("x", .char 'a', "x,x"), ("x,x", .char 'a', "x")]

/-- The automaton of the draft. -/
def oddLength : Dfa where
  alphabet := .ofSet (.ofList ['a'])
  states := #[⟨"x", false, [some 1]⟩, ⟨"x,x", true, [some 0]⟩]
  initial := 0

/-- The pairs of the first state with the second one and of the second one with the first have the
same label. What is made of the product of the automaton with itself is undefined or wrong. -/
theorem not_isLabelled_toNfa_intersection :
    oddDraft.toDfa = .ok oddLength ∧
      ¬ (oddLength.intersection oddLength).toNfa.IsLabelled ∧
      (oddLength.intersection oddLength).toNfa.toDfa? = none ∧
      RegularGrammar.ofNfa? (oddLength.intersection oddLength).toNfa = none ∧
      (oddLength.intersection oddLength).accepts ['a', 'a', 'a'] = true ∧
      (oddLength.intersection oddLength).toNfa.removeEpsilon.accepts ['a', 'a', 'a'] = false := by
  let d := oddLength.intersection oddLength
  have hrun : d.run d.initial ['a'] = some 3 := by decide +kernel
  have hlabels : d.toNfa.numStates ≤ 3 := by decide +kernel
  exact ⟨by decide, by decide +kernel, toDfa?_toNfa_eq_none hrun hlabels, by decide +kernel,
    by decide +kernel, accepts_removeEpsilon_toNfa_eq_false hrun hlabels 'a' ['a']⟩

end Dfa

end LanguageTheory
