import LanguageTheory.AutomatonDraft
import LanguageTheory.Proofs.Checks
import LanguageTheory.Proofs.Collections.OrderedSet
import LanguageTheory.Proofs.Collections.Table
import LanguageTheory.Proofs.Dfa.Runs
import LanguageTheory.Proofs.Nfa.Paths

/-!
# Automata of drafts

The automaton of a draft has the transitions that the draft lists, between the numbers of their
labels. A label has one number only, and a character that is not declared is refused, so the order
of the transitions does not matter and each of them reads a declared character.
-/

namespace LanguageTheory

namespace AutomatonDraft

variable {d : AutomatonDraft} {n : Nfa} {a : Alphabet} {labels : OrderedSet String}
  {delta delta' : Table (Nat × Symbol) (OrderedSet Nat)} {source target label : String}
  {s symbol : Symbol} {i j : Nat} {ts : List (String × Symbol × String)}

/-! ### Transitions -/

/-- The number of a state is the place of its label. -/
theorem stateId_eq_ok_iff : stateId labels label = .ok i ↔ labels.idxOf? label = some i := by
  unfold stateId
  split
  · next h => simp [h]
  · next k h => simp [h]

/-- The states with numbers are the declared ones. -/
theorem exists_stateId_eq_ok_iff : (∃ i, stateId labels label = .ok i) ↔ label ∈ labels := by
  simp only [stateId_eq_ok_iff]
  exact OrderedSet.exists_idxOf?_eq_some_iff

/-- A transition is added when its labels and its character are declared. -/
theorem addTransition_eq_ok_iff : addTransition a labels delta (source, s, target) = .ok delta' ↔
    ∃ i j, labels.idxOf? source = some i ∧ labels.idxOf? target = some j ∧
      (∀ c, s = .char c → c ∈ a) ∧
      delta' = delta.upsert (i, s) fun targets ↦ (targets.getD ∅).insert j := by
  constructor
  · intro h
    unfold addTransition at h
    obtain ⟨i, hi, h⟩ := bind_eq_ok_iff.mp h
    obtain ⟨j, hj, h⟩ := bind_eq_ok_iff.mp h
    refine ⟨i, j, stateId_eq_ok_iff.mp hi, stateId_eq_ok_iff.mp hj, ?_⟩
    cases s with
    | epsilon =>
      cases h
      exact ⟨fun _ hs ↦ Symbol.noConfusion hs, rfl⟩
    | char c =>
      dsimp only at h
      split at h
      · next hc =>
        cases h
        refine ⟨fun _ hs ↦ ?_, rfl⟩
        cases hs
        exact hc
      · cases h
  · rintro ⟨i, j, hi, hj, hs, rfl⟩
    unfold addTransition
    refine bind_eq_ok_iff.mpr ⟨i, stateId_eq_ok_iff.mpr hi, ?_⟩
    refine bind_eq_ok_iff.mpr ⟨j, stateId_eq_ok_iff.mpr hj, ?_⟩
    cases s with
    | epsilon => rfl
    | char c =>
      dsimp only
      rw [if_pos (hs c rfl)]
      rfl

/-- One more transition is listed for the numbers of its labels, and nothing else changes. -/
theorem lists_of_addTransition
    (h : addTransition a labels delta (source, symbol, target) = .ok delta') :
    delta'.Lists (i, s) j ↔ delta.Lists (i, s) j ∨
      s = symbol ∧ labels.idxOf? source = some i ∧ labels.idxOf? target = some j := by
  obtain ⟨k, l, hk, hl, _, rfl⟩ := addTransition_eq_ok_iff.mp h
  rw [Table.lists_upsert_insert, hk, hl]
  refine or_congr_right ?_
  constructor
  · rintro ⟨he, rfl⟩
    cases he
    exact ⟨rfl, rfl, rfl⟩
  · rintro ⟨rfl, hi, hj⟩
    cases hi
    cases hj
    exact ⟨rfl, rfl⟩

/-- The transitions that were added are listed, in any order. -/
theorem lists_of_foldlM_addTransition (h : ts.foldlM (addTransition a labels) delta = .ok delta') :
    delta'.Lists (i, s) j ↔ delta.Lists (i, s) j ∨ ∃ source target, (source, s, target) ∈ ts ∧
      labels.idxOf? source = some i ∧ labels.idxOf? target = some j := by
  induction ts generalizing delta with
  | nil =>
    cases h
    simp
  | cons t ts ih =>
    obtain ⟨source, symbol, target⟩ := t
    obtain ⟨next, hnext, h⟩ := bind_eq_ok_iff.mp h
    rw [ih h, lists_of_addTransition hnext, or_assoc]
    refine or_congr_right ?_
    constructor
    · rintro (⟨rfl, hi, hj⟩ | ⟨source', target', hmem, hi, hj⟩)
      · exact ⟨source, target, List.mem_cons_self, hi, hj⟩
      · exact ⟨source', target', List.mem_cons_of_mem _ hmem, hi, hj⟩
    · rintro ⟨source', target', hmem, hi, hj⟩
      rcases List.mem_cons.mp hmem with he | hmem
      · cases he
        exact .inl ⟨rfl, hi, hj⟩
      · exact .inr ⟨source', target', hmem, hi, hj⟩

/-- Transitions are added when their labels and characters are declared, whatever was added before
them. -/
theorem exists_foldlM_addTransition_eq_ok_iff :
    (∃ delta', ts.foldlM (addTransition a labels) delta = .ok delta') ↔
      ∀ t ∈ ts, t.1 ∈ labels ∧ t.2.2 ∈ labels ∧ ∀ c, t.2.1 = .char c → c ∈ a := by
  refine exists_foldlM_eq_ok_iff fun delta t ↦ ?_
  obtain ⟨source, s, target⟩ := t
  simp only [addTransition_eq_ok_iff, ← OrderedSet.exists_idxOf?_eq_some_iff]
  constructor
  · rintro ⟨_, i, j, hi, hj, hs, _⟩
    exact ⟨⟨i, hi⟩, ⟨j, hj⟩, hs⟩
  · rintro ⟨⟨i, hi⟩, ⟨j, hj⟩, hs⟩
    exact ⟨_, i, j, hi, hj, hs, rfl⟩

/-- Adding transitions leaves no set of targets empty. -/
theorem filled_of_foldlM_addTransition (hdelta : delta.Filled)
    (h : ts.foldlM (addTransition a labels) delta = .ok delta') : delta'.Filled := by
  induction ts generalizing delta with
  | nil =>
    cases h
    exact hdelta
  | cons t ts ih =>
    obtain ⟨next, hnext, h⟩ := bind_eq_ok_iff.mp h
    obtain ⟨i, j, _, _, _, rfl⟩ := addTransition_eq_ok_iff.mp hnext
    exact ih (hdelta.upsert_insert _ _) h

/-- Listed states all have numbers when they are declared. -/
theorem exists_mapM_stateId_eq_ok_iff {xs : List String} :
    (∃ is, xs.mapM (stateId labels) = .ok is) ↔ ∀ label ∈ xs, label ∈ labels := by
  simp only [exists_mapM_eq_ok_iff, exists_stateId_eq_ok_iff]

/-- Listed states have numbers, which are listed in turn. -/
theorem exists_of_mapM_stateId {xs : List String} {is : List Nat}
    (h : xs.mapM (stateId labels) = .ok is) (hx : label ∈ xs) :
    ∃ i ∈ is, labels.idxOf? label = some i := by
  obtain ⟨i, hi, hlabel⟩ := exists_mem_of_forall₂ (mapM_eq_ok_iff.mp h).flip hx
  exact ⟨i, hi, stateId_eq_ok_iff.mp hlabel⟩

/-- The numbers of listed states are those of their labels. -/
theorem mem_iff_of_mapM_stateId {xs : List String} {is : List Nat}
    (h : xs.mapM (stateId labels) = .ok is) :
    i ∈ is ↔ ∃ label ∈ xs, labels.idxOf? label = some i := by
  constructor
  · intro hi
    obtain ⟨label, hlabel, hnumber⟩ := exists_mem_of_forall₂ (mapM_eq_ok_iff.mp h) hi
    exact ⟨label, hlabel, stateId_eq_ok_iff.mp hnumber⟩
  · rintro ⟨label, hlabel, hnumber⟩
    obtain ⟨j, hj, hnumber'⟩ := exists_of_mapM_stateId h hlabel
    rwa [Option.some.inj (hnumber.symm.trans hnumber')]

/-- Listed states are those whose numbers are listed. -/
theorem label_mem_iff_of_mapM_stateId {xs : List String} {is : List Nat}
    (h : xs.mapM (stateId labels) = .ok is) :
    label ∈ xs ↔ ∃ i ∈ is, labels.idxOf? label = some i := by
  refine ⟨exists_of_mapM_stateId h, fun ⟨i, hi, hnumber⟩ ↦ ?_⟩
  obtain ⟨label', hlabel', hnumber'⟩ := (mem_iff_of_mapM_stateId h).mp hi
  rwa [OrderedSet.eq_of_idxOf?_eq_some hnumber hnumber']

/-! ### Checked drafts -/

/-- The automaton of a draft has its characters, its labels, its transitions and its marks. -/
theorem check_eq_ok_iff : d.check = .ok n ↔ Alphabet.ofChars d.alphabet = .ok n.alphabet ∧
    n.labels = .ofList d.states ∧
    d.transitions.foldlM (addTransition n.alphabet n.labels) ∅ = .ok n.delta ∧
    (∃ is, d.initial.mapM (stateId n.labels) = .ok is ∧ n.initial = .ofList is) ∧
    ∃ is, d.accepting.mapM (stateId n.labels) = .ok is ∧ n.accepting = .ofList is := by
  unfold check
  constructor
  · intro h
    obtain ⟨a, ha, h⟩ := bind_eq_ok_iff.mp h
    obtain ⟨initial, hinitial, h⟩ := bind_eq_ok_iff.mp h
    obtain ⟨accepting, haccepting, h⟩ := bind_eq_ok_iff.mp h
    obtain ⟨delta, hdelta, h⟩ := bind_eq_ok_iff.mp h
    cases h
    exact ⟨ha, rfl, hdelta, ⟨initial, hinitial, rfl⟩, accepting, haccepting, rfl⟩
  · obtain ⟨a, labels, delta, initial, accepting⟩ := n
    rintro ⟨ha, hlabels, hdelta, ⟨is, his, hinitial⟩, js, hjs, haccepting⟩
    dsimp only at ha hlabels hdelta hinitial haccepting his hjs
    subst hlabels hinitial haccepting
    refine bind_eq_ok_iff.mpr ⟨a, ha, bind_eq_ok_iff.mpr ⟨is, his, ?_⟩⟩
    exact bind_eq_ok_iff.mpr ⟨js, hjs, bind_eq_ok_iff.mpr ⟨delta, hdelta, rfl⟩⟩

/-- The parts of the automaton of a draft. -/
theorem check_eq_ok (h : d.check = .ok n) : Alphabet.ofChars d.alphabet = .ok n.alphabet ∧
    n.labels = .ofList d.states ∧
    d.transitions.foldlM (addTransition n.alphabet n.labels) ∅ = .ok n.delta := by
  obtain ⟨ha, hlabels, hdelta, _⟩ := check_eq_ok_iff.mp h
  exact ⟨ha, hlabels, hdelta⟩

/-- The transitions are those that the draft lists. -/
theorem mem_transitions_iff (h : d.check = .ok n) : (i, s, j) ∈ n.transitions ↔
    ∃ source target, (source, s, target) ∈ d.transitions ∧
      n.findLabel? source = some i ∧ n.findLabel? target = some j := by
  obtain ⟨_, _, hdelta⟩ := check_eq_ok h
  rw [Nfa.mem_transitions_iff_lists, lists_of_foldlM_addTransition hdelta,
    or_iff_right Table.not_lists_empty]
  exact Iff.rfl

/-- Every transition reads a declared character. -/
theorem readsDeclared_of_check (h : d.check = .ok n) : n.ReadsDeclared := by
  obtain ⟨_, _, hdelta⟩ := check_eq_ok h
  intro i c j hmove
  obtain ⟨source, target, hmem, _⟩ := (mem_transitions_iff h).mp hmove
  exact (exists_foldlM_addTransition_eq_ok_iff.mp ⟨_, hdelta⟩ _ hmem).2.2 c rfl

/-- The ends of a listed transition have numbers. -/
theorem exists_numbers_of_mem (h : d.check = .ok n) (hmove : (source, s, target) ∈ d.transitions) :
    ∃ i j, n.findLabel? source = some i ∧ n.findLabel? target = some j := by
  obtain ⟨_, _, hdelta⟩ := check_eq_ok h
  obtain ⟨hsource, htarget, _⟩ := exists_foldlM_addTransition_eq_ok_iff.mp ⟨_, hdelta⟩ _ hmove
  obtain ⟨i, hi⟩ := OrderedSet.exists_idxOf?_eq_some hsource
  obtain ⟨j, hj⟩ := OrderedSet.exists_idxOf?_eq_some htarget
  exact ⟨i, j, hi, hj⟩

/-- A transition is listed when there is one between the numbers of its labels. -/
theorem mem_iff_exists_numbers (h : d.check = .ok n) : (source, s, target) ∈ d.transitions ↔
    ∃ i j, n.findLabel? source = some i ∧ n.findLabel? target = some j ∧
      (i, s, j) ∈ n.transitions := by
  constructor
  · intro hmove
    obtain ⟨i, j, hi, hj⟩ := exists_numbers_of_mem h hmove
    exact ⟨i, j, hi, hj, (mem_transitions_iff h).mpr ⟨source, target, hmove, hi, hj⟩⟩
  · rintro ⟨i, j, hi, hj, hmove⟩
    obtain ⟨source', target', hmove, hi', hj'⟩ := (mem_transitions_iff h).mp hmove
    rwa [OrderedSet.eq_of_idxOf?_eq_some hi hi', OrderedSet.eq_of_idxOf?_eq_some hj hj']

/-- The initial and accepting states are those that the draft marks. -/
theorem marks_of_check (h : d.check = .ok n) :
    (∃ is, d.initial.mapM (stateId n.labels) = .ok is ∧ n.initial = .ofList is) ∧
      ∃ is, d.accepting.mapM (stateId n.labels) = .ok is ∧ n.accepting = .ofList is := by
  obtain ⟨_, _, _, hmarks⟩ := check_eq_ok_iff.mp h
  exact hmarks

/-- A state is initial when its label is marked as initial. -/
theorem mem_initial_iff (h : d.check = .ok n) :
    i ∈ n.initial ↔ ∃ label ∈ d.initial, n.findLabel? label = some i := by
  obtain ⟨⟨is, his, hinitial⟩, _⟩ := marks_of_check h
  rw [hinitial, OrderedSet.mem_ofList, mem_iff_of_mapM_stateId his]
  exact Iff.rfl

/-- A state is accepting when its label is marked as accepting. -/
theorem mem_accepting_iff (h : d.check = .ok n) :
    i ∈ n.accepting ↔ ∃ label ∈ d.accepting, n.findLabel? label = some i := by
  obtain ⟨_, is, his, haccepting⟩ := marks_of_check h
  rw [haccepting, OrderedSet.mem_ofList, mem_iff_of_mapM_stateId his]
  exact Iff.rfl

/-- A label is marked as initial when its number is initial. -/
theorem label_mem_initial_iff (h : d.check = .ok n) :
    label ∈ d.initial ↔ ∃ i ∈ n.initial, n.findLabel? label = some i := by
  obtain ⟨⟨is, his, hinitial⟩, _⟩ := marks_of_check h
  simp only [hinitial, OrderedSet.mem_ofList]
  exact label_mem_iff_of_mapM_stateId his

/-- A label is marked as accepting when its number is accepting. -/
theorem label_mem_accepting_iff (h : d.check = .ok n) :
    label ∈ d.accepting ↔ ∃ i ∈ n.accepting, n.findLabel? label = some i := by
  obtain ⟨_, is, his, haccepting⟩ := marks_of_check h
  simp only [haccepting, OrderedSet.mem_ofList]
  exact label_mem_iff_of_mapM_stateId his

/-- The initial and accepting states are declared. -/
theorem lt_numStates_of_check (h : d.check = .ok n) (hi : i ∈ n.initial ∨ i ∈ n.accepting) :
    i < n.numStates := by
  rw [mem_initial_iff h, mem_accepting_iff h] at hi
  rcases hi with ⟨label, _, hlabel⟩ | ⟨label, _, hlabel⟩
  · exact OrderedSet.lt_size_of_idxOf?_eq_some hlabel
  · exact OrderedSet.lt_size_of_idxOf?_eq_some hlabel

/-- No state has an empty set of targets. -/
theorem filled_of_check (h : d.check = .ok n) : n.delta.Filled :=
  filled_of_foldlM_addTransition Table.filled_empty (check_eq_ok h).2.2

/-- Every state that the automaton of a draft refers to has a label. -/
theorem isLabelled_of_check (h : d.check = .ok n) : n.IsLabelled := by
  refine Nfa.isLabelled_of_transitions (fun i hi ↦ lt_numStates_of_check h (.inl hi))
    (fun i hi ↦ lt_numStates_of_check h (.inr hi)) (filled_of_check h) fun i s j hmove ↦ ?_
  obtain ⟨source, target, _, hi, hj⟩ := (mem_transitions_iff h).mp hmove
  exact ⟨OrderedSet.lt_size_of_idxOf?_eq_some hi, OrderedSet.lt_size_of_idxOf?_eq_some hj⟩

/-- The automaton of a draft is that of its parts, with an initial state. -/
theorem toNfa_eq_ok_iff :
    d.toNfa = .ok n ↔ d.check = .ok n ∧ ∃ i, i ∈ n.initial := by
  unfold toNfa
  rw [bind_eq_ok_iff]
  constructor
  · rintro ⟨m, hm, h⟩
    split at h
    · cases h
    · next hne =>
      cases h
      rw [OrderedSet.isEmpty_iff, not_forall_not] at hne
      exact ⟨hm, hne⟩
  · rintro ⟨hn, hinitial⟩
    refine ⟨n, hn, if_neg ?_⟩
    rwa [OrderedSet.isEmpty_iff, not_forall_not]

/-! ### Deterministic automata -/

/-- The deterministic automaton that follows the first target on each character. -/
def firstTargets (n : Nfa) (initial : Nat) : Dfa where
  alphabet := n.alphabet
  states := (n.labels.toList.mapIdx fun i label ↦
    { label := label
      isFinal := n.isAccepting i
      next := n.alphabet.toList.map fun c ↦
        (n.targets? i (.char c)).bind OrderedSet.first? }).toArray
  initial := initial

/-- There is a state for each label. -/
theorem numStates_firstTargets (n : Nfa) (initial : Nat) :
    (firstTargets n initial).numStates = n.numStates :=
  List.length_mapIdx

/-- The state of a label is final when its number is accepting, and its successors are the first
targets. -/
theorem exists_state?_firstTargets (k : Nat) (hi : i < n.numStates) :
    ∃ state, (firstTargets n k).state? i = some state ∧ state.isFinal = n.isAccepting i ∧
      state.next = n.alphabet.toList.map fun c ↦
        (n.targets? i (.char c)).bind OrderedSet.first? := by
  obtain ⟨label, hlabel⟩ : ∃ label, n.labels.toList[i]? = some label :=
    ⟨_, List.getElem?_eq_getElem hi⟩
  let next := n.alphabet.toList.map fun c ↦ (n.targets? i (.char c)).bind OrderedSet.first?
  refine ⟨⟨label, n.isAccepting i, next⟩, ?_, rfl, rfl⟩
  rw [Dfa.state?, firstTargets, List.getElem?_toArray, List.getElem?_mapIdx, hlabel]
  rfl

/-- There is a unique initial state when the set has one element. -/
theorem uniqueInitial_eq_ok_iff {s : OrderedSet Nat} :
    uniqueInitial s = .ok i ↔ ∀ j, j ∈ s ↔ j = i := by
  unfold uniqueInitial
  constructor
  · intro h j
    split at h
    · cases h
    · next k hk =>
      cases h
      rw [← OrderedSet.mem_toList, hk, List.mem_singleton]
    · cases h
  · intro h
    have hs : s.toList = [i] := by
      refine List.perm_singleton.mp ?_
      refine (List.perm_ext_iff_of_nodup s.nodup (List.nodup_singleton i)).mpr fun j ↦ ?_
      rw [OrderedSet.mem_toList, h, List.mem_singleton]
    rw [hs]

/-- A draft describes a deterministic automaton when it has one initial state and no transition
stands in the way. -/
theorem toDfa_eq_ok_iff {e : Dfa} : d.toDfa = .ok e ↔ ∃ n i, d.check = .ok n ∧
    uniqueInitial n.initial = .ok i ∧ conflict? n = none ∧ e = firstTargets n i := by
  unfold toDfa
  rw [bind_eq_ok_iff]
  refine exists_congr fun n ↦ ?_
  rw [bind_eq_ok_iff]
  constructor
  · rintro ⟨hn, i, hi, h⟩
    split at h
    · cases h
    · next hconflict =>
      cases h
      exact ⟨i, hn, hi, hconflict, rfl⟩
  · rintro ⟨i, hn, hi, hconflict, rfl⟩
    refine ⟨hn, i, hi, ?_⟩
    rw [hconflict]
    rfl

/-- The deterministic automaton of a draft is well formed. -/
theorem wellFormed_of_toDfa {e : Dfa} (h : d.toDfa = .ok e) : e.WellFormed := by
  obtain ⟨n, initial, hn, hinitial, -, rfl⟩ := toDfa_eq_ok_iff.mp h
  have hlt := lt_numStates_of_check hn (.inl ((uniqueInitial_eq_ok_iff.mp hinitial _).mpr rfl))
  refine .of_next ?_ fun i s hs ↦ ?_
  · rwa [numStates_firstTargets]
  · have hi := Dfa.exists_state?_iff.mp ⟨s, hs⟩
    rw [numStates_firstTargets] at hi
    obtain ⟨state, hstate, -, hnext⟩ := exists_state?_firstTargets initial hi
    obtain rfl := Option.some.inj (hs.symm.trans hstate)
    refine ⟨_, hnext, fun c j hj ↦ ?_⟩
    obtain ⟨targets, ht, hj⟩ := Option.bind_eq_some_iff.mp hj
    have hlabelled := (Nfa.isLabelled_iff.mp (isLabelled_of_check hn)).2.2 i _ targets ht
    rw [numStates_firstTargets]
    exact hlabelled.2 j (List.mem_of_head? hj)

end AutomatonDraft

end LanguageTheory
