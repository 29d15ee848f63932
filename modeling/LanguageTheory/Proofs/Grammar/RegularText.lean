import LanguageTheory.Proofs.Grammar.Draft
import LanguageTheory.Proofs.Grammar.Regular

/-!
# Rule text of the grammars of automata

Whether labels or numbers name the states, the names are valid and apart from the terminals. A start
symbol for several initial states is made fresh among the nonterminals only: it is `S` even if `S`
is a terminal, and then the rule text of the grammar is not read.
-/

namespace LanguageTheory

namespace RegularGrammar

open Grammar

variable {n : Nfa} {r : RegularGrammar} {a : Alphabet} {name label : String}

/-! ### Reading regular grammars -/

/-- Rule text gives back exactly the regular grammars that are well named. -/
theorem WellFormed.parse_render_iff (hr : r.WellFormed) :
    (∃ k, parse r.grammar.start r.grammar.terminals.toList r.render = .ok k ∧ k ≈ r) ↔
      r.grammar.WellNamed := by
  rw [← Grammar.parse_render_iff hr.grammar]
  constructor
  · rintro ⟨k, hk, hkr⟩
    obtain ⟨g, hg, hgk⟩ := bind_eq_ok_iff.mp hk
    obtain ⟨_, rfl⟩ := ofGrammar_eq_ok_iff.mp hgk
    exact ⟨g, hg, hkr⟩
  · rintro ⟨g, hg, hgr⟩
    have hbodies : ∀ name, ∀ body ∈ g.bodies name, RegularGrammar.isRegularBody body = true := by
      intro name body hb
      exact hr.isRegularBody name body ((Productions.mem_bodies_of_equiv hgr.2.2).mp hb)
    exact ⟨⟨g⟩, bind_eq_ok_iff.mpr ⟨g, hg, ofGrammar_eq_ok_iff.mpr ⟨hbodies, rfl⟩⟩, hgr⟩

/-! ### Names of states -/

/-- A label can be used when it is a valid name and no terminal. -/
theorem isUsableLabel_iff : isUsableLabel a label = true ↔
    isValidName label = true ∧ ∀ c ∈ a, label ≠ c.toString := by
  rw [isUsableLabel, Bool.and_eq_true]
  refine and_congr_right fun _ ↦ ?_
  simp only [ne_eq, eq_toString_iff, Bool.not_eq_true', Bool.and_eq_false_imp, decide_eq_true_eq]
  constructor
  · intro h c hc hlabel
    have hnone := h (by simp [hlabel])
    rw [hlabel, List.any_eq_false] at hnone
    exact hnone c List.mem_cons_self (Alphabet.contains_iff.mpr hc)
  · intro h hlength
    obtain ⟨c, hlabel⟩ := List.length_eq_one_iff.mp hlength
    rw [hlabel, List.any_eq_false]
    intro d hd hc
    rw [List.mem_singleton.mp hd] at hc
    exact h c (Alphabet.contains_iff.mp hc) hlabel

/-- Digits are characters of names. -/
theorem isNameChar_of_isDigit {c : Char} (h : c.isDigit = true) : isNameChar c = true := by
  have hdigits : ∀ k < 58, 48 ≤ k → isNameChar (Char.ofNat k) = true := by decide
  obtain ⟨hlo, hhi⟩ := Char.isDigit_iff_toNat.mp h
  rw [← Char.ofNat_toNat c]
  exact hdigits c.toNat (Nat.lt_succ_of_le hhi) hlo

/-- The names of states can be used. -/
theorem isUsableLabel_of_mem_stateNames (h : name ∈ stateNames n) :
    isUsableLabel n.alphabet name = true := by
  unfold stateNames at h
  dsimp only at h
  split at h
  · next hall => exact List.all_eq_true.mp hall name h
  · obtain ⟨i, _, rfl⟩ := List.mem_map.mp h
    have htext : ("q" ++ toString i).toList = 'q' :: Nat.toDigits 10 i := by
      rw [String.toList_append, Nat.toString_eq_repr, Nat.toList_repr]
      rfl
    refine isUsableLabel_iff.mpr ⟨isValidName_iff.mpr ?_, fun c _ hc ↦ ?_⟩
    · rw [htext]
      refine ⟨List.cons_ne_nil _ _, List.forall_mem_cons.mpr ⟨by decide, fun c hc ↦ ?_⟩⟩
      exact isNameChar_of_isDigit (Nat.isDigit_of_mem_toDigits (by decide) (by decide) hc)
    · rw [eq_toString_iff, htext] at hc
      exact Nat.toDigits_ne_nil (List.cons.inj hc).2

/-- A grammar with terminals that rule text can express is well named when all its nonterminals can
be used beside them. -/
theorem wellNamed_iff {g : Grammar}
    (hterminals : ∀ c ∈ g.terminals, isReserved c = false ∧ c ≠ epsilonChar) :
    g.WellNamed ↔ ∀ name ∈ g.nonterminals, isUsableLabel g.terminals name = true := by
  simp only [isUsableLabel_iff]
  constructor
  · intro h name hname
    refine ⟨h.valid name hname, fun c hc hnamed ↦ h.apart c hc ?_⟩
    rwa [← hnamed]
  · intro h
    exact ⟨hterminals, fun name hname ↦ (h name hname).1, fun c hc hname ↦ (h _ hname).2 c hc rfl⟩

section Labelled

variable (hn : n.IsLabelled)
include hn

/-- The nonterminals are the names of the states. -/
theorem mem_keys_stateProductions_iff :
    name ∈ Table.keys (stateProductions n (stateNames n)) ↔ name ∈ stateNames n := by
  obtain ⟨_, haccepting, _⟩ := Nfa.isLabelled_iff.mp hn
  have hstate {i : Nat} (hi : i < n.numStates) : nameAt (stateNames n) i ∈ stateNames n := by
    rw [← length_stateNames] at hi
    exact nameAt_mem hi
  have hadd {p : Productions} {head : String} (body : Body)
      (hp : ∀ m ∈ Table.keys p, m ∈ stateNames n) (hhead : head ∈ stateNames n) :
      ∀ m ∈ Table.keys (p.add head body), m ∈ stateNames n := by
    intro m hm
    rcases Productions.mem_keys_add.mp hm with hm | rfl
    · exact hp m hm
    · exact hhead
  have hall : ∀ m ∈ Table.keys (stateProductions n (stateNames n)), m ∈ stateNames n := by
    refine List.foldlRecOn (motive := fun p ↦ ∀ m ∈ Table.keys p, m ∈ stateNames n) _ _ ?_
      fun p hp i hi ↦ hadd _ hp (hstate (haccepting i hi))
    refine List.foldlRecOn (motive := fun p ↦ ∀ m ∈ Table.keys p, m ∈ stateNames n) _ _ ?_ ?_
    · intro m hm
      simpa using Table.mem_keys_ofList.mp hm
    · rintro p hp ⟨i, s, j⟩ hmove
      cases s with
      | epsilon => exact hp
      | char c =>
        have hi := (hn.lt_of_mem_transitions hmove).1
        exact List.foldlRecOn (motive := fun p ↦ ∀ m ∈ Table.keys p, m ∈ stateNames n) _ _ hp
          fun p hp body _ ↦ hadd body hp (hstate hi)
  exact ⟨hall name, mem_keys_stateProductions⟩

/-- A start symbol for several states can be used when `S` is no terminal. -/
theorem isUsableLabel_freshName_iff :
    isUsableLabel n.alphabet (freshName "S" (Table.keys (stateProductions n (stateNames n)))) =
      true ↔ 'S' ∉ n.alphabet := by
  constructor
  · intro h hS
    -- No state is called `S`, so this is the fresh name.
    have hnew : "S" ∉ Table.keys (stateProductions n (stateNames n)) := by
      intro hmem
      have husable := isUsableLabel_of_mem_stateNames ((mem_keys_stateProductions_iff hn).mp hmem)
      exact (isUsableLabel_iff.mp husable).2 'S' hS rfl
    rw [freshName, if_neg hnew] at h
    exact (isUsableLabel_iff.mp h).2 'S' hS rfl
  · intro hS
    obtain ⟨k, hk⟩ := exists_toList_freshName "S" (stateProductions n (stateNames n)).keys
    refine isUsableLabel_iff.mpr ⟨isValidName_iff.mpr ?_, fun c hc hnamed ↦ ?_⟩
    · rw [hk]
      refine ⟨List.cons_ne_nil _ _, List.forall_mem_cons.mpr ⟨by decide, fun c hc ↦ ?_⟩⟩
      rw [List.eq_of_mem_replicate hc]
      decide
    · rw [eq_toString_iff, hk] at hnamed
      obtain ⟨rfl, _⟩ := List.cons.inj hnamed
      exact hS hc

/-- The grammar of an automaton is well named unless `S` is the start symbol for several states and
a terminal as well. -/
theorem wellNamed_ofEpsilonFree_iff
    (hterminals : ∀ c ∈ n.alphabet, isReserved c = false ∧ c ≠ epsilonChar) :
    (ofEpsilonFree n).grammar.WellNamed ↔ n.initial.size = 1 ∨ 'S' ∉ n.alphabet := by
  have hstates : ∀ name ∈ Table.keys (stateProductions n (stateNames n)),
      isUsableLabel n.alphabet name = true := fun name hname ↦
    isUsableLabel_of_mem_stateNames ((mem_keys_stateProductions_iff hn).mp hname)
  have hsize : (n.initial.toList.map (nameAt (stateNames n))).length = n.initial.size :=
    List.length_map _
  unfold ofEpsilonFree
  dsimp only
  split
  · next start hsingle =>
    rw [hsingle] at hsize
    rw [wellNamed_iff hterminals]
    exact ⟨fun _ ↦ .inl hsize.symm, fun _ ↦ hstates⟩
  · next hseveral =>
    have hne : n.initial.size ≠ 1 := by
      intro hone
      obtain ⟨start, hstart⟩ := List.length_eq_one_iff.mp (hsize.trans hone)
      exact hseveral start hstart
    rw [wellNamed_iff hterminals, or_iff_right hne, ← isUsableLabel_freshName_iff hn]
    constructor
    · exact fun h ↦ h _ (mem_keys_withJoin.mpr (.inr rfl))
    · intro h name hname
      rcases mem_keys_withJoin.mp hname with hname | rfl
      · exact hstates name hname
      · exact h

omit hn in
/-- The automaton from which the grammar is read off has the same characters. -/
theorem alphabet_epsilonFree : (epsilonFree n).alphabet = n.alphabet := by
  unfold epsilonFree
  split <;> rfl

omit hn in
/-- The automaton from which the grammar is read off has the same initial states. -/
theorem initial_epsilonFree : (epsilonFree n).initial = n.initial := by
  unfold epsilonFree
  split <;> rfl

omit hn in
/-- The terminals of the grammar are the characters of the automaton. -/
theorem terminals_ofNfa : (ofNfa n).grammar.terminals = n.alphabet := by
  rw [← alphabet_epsilonFree, ofNfa, ofEpsilonFree]
  dsimp only
  split <;> rfl

/-- Rule text gives back the grammar of an automaton, unless the automaton has no initial state or
several of them and `S` is one of its characters. -/
theorem parse_render_ofNfa_iff (hread : n.ReadsDeclared)
    (hterminals : ∀ c ∈ n.alphabet, isReserved c = false ∧ c ≠ epsilonChar) :
    (∃ r, parse (ofNfa n).grammar.start n.alphabet.toList (ofNfa n).render = .ok r ∧
      r ≈ ofNfa n) ↔ n.initial.size = 1 ∨ 'S' ∉ n.alphabet := by
  have htext := (wellFormed_ofNfa hn hread).parse_render_iff
  rw [terminals_ofNfa] at htext
  rw [htext, ofNfa, wellNamed_ofEpsilonFree_iff (isLabelled_epsilonFree hn), initial_epsilonFree,
    alphabet_epsilonFree]
  rwa [alphabet_epsilonFree]

end Labelled

/-- The grammar of an automaton with two initial states that does not read `S`. -/
theorem parse_render_ofNfa_loops :
    Nfa.loops.IsLabelled ∧ Nfa.loops.ReadsDeclared ∧
      (∀ c ∈ Nfa.loops.alphabet.toList, isReserved c = false ∧ c ≠ epsilonChar) ∧
      ∃ r, parse (ofNfa Nfa.loops).grammar.start Nfa.loops.alphabet.toList
        (ofNfa Nfa.loops).render = .ok r ∧ r ≈ ofNfa Nfa.loops := by
  have hlabels : Nfa.loops.IsLabelled := by decide
  have hread : Nfa.loops.ReadsDeclared := by decide
  have hterminals : ∀ c ∈ Nfa.loops.alphabet.toList, isReserved c = false ∧ c ≠ epsilonChar := by
    intro c hc
    rcases List.mem_pair.mp hc with rfl | rfl
    · decide
    · decide
  exact ⟨hlabels, hread, hterminals,
    (parse_render_ofNfa_iff hlabels hread hterminals).mpr (.inr (by decide))⟩

/-- Two initial states, between which `S` is read. -/
def readsS : Nfa where
  alphabet := .ofSet (.ofList ['S'])
  labels := .ofList ["p", "q"]
  delta := .ofList [((0, .char 'S'), .ofList [1])]
  initial := .ofList [0, 1]
  accepting := .ofList [1]

/-- The start symbol of the grammar of this automaton is a terminal, so that its rule text is not
read. -/
theorem not_parse_render_ofNfa_readsS :
    readsS.IsLabelled ∧ readsS.ReadsDeclared ∧
      (∀ c ∈ readsS.alphabet.toList, isReserved c = false ∧ c ≠ epsilonChar) ∧
      (ofNfa readsS).grammar.start = "S" ∧
      parse (ofNfa readsS).grammar.start readsS.alphabet.toList (ofNfa readsS).render =
        .error (.malformedAlphabet 'S') := by
  have hterminals : ∀ c ∈ readsS.alphabet.toList, isReserved c = false ∧ c ≠ epsilonChar :=
    List.forall_mem_singleton.mpr (by decide)
  exact ⟨by decide, by decide, hterminals, by decide +kernel, by decide +kernel⟩

end RegularGrammar

end LanguageTheory
