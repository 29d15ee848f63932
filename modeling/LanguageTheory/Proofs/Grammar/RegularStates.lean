import LanguageTheory.Proofs.Collections.OrderedSet
import LanguageTheory.Proofs.Grammar.Regular

/-!
# Automata of regular grammars

The states of the automaton of a regular grammar are its nonterminals, in their order, and a last
one for the end of a word, with a label that is no nonterminal. A transition is a body, so the words
that lead from the state of a nonterminal to an accepting one are those of the nonterminal.
-/

namespace LanguageTheory

namespace RegularGrammar

open Grammar

variable {g : RegularGrammar} {name other : String} {c : Char} {s : Symbol} {i j : Nat}
  {w : List Char}

/-! ### Numbers of states -/

/-- Number of the state for the end of a word. -/
def finalState (g : RegularGrammar) : Nat := g.grammar.nonterminals.length

/-- Number of the state for a nonterminal; another name gets that of the end of a word. -/
def stateOf (g : RegularGrammar) (name : String) : Nat :=
  (g.toNfa.findLabel? name).getD g.finalState

/-- The labels are the nonterminals and one more. -/
theorem toList_labels_toNfa (g : RegularGrammar) : g.toNfa.labels.toList =
    g.grammar.nonterminals ++ [g.grammar.freshNonterminal finalLabel] := by
  have hlabels : (OrderedSet.ofList g.grammar.nonterminals).toList = g.grammar.nonterminals :=
    OrderedSet.toList_ofList_of_nodup g.grammar.productions.nodup_keys
  have hfresh : g.grammar.freshNonterminal finalLabel ∉
      OrderedSet.ofList g.grammar.nonterminals := by
    rw [OrderedSet.mem_ofList]
    exact freshName_notMem _ _
  rw [toNfa]
  dsimp only
  rw [OrderedSet.toList_insert_of_notMem hfresh, hlabels]

/-- There is one state more than there are nonterminals. -/
theorem numStates_toNfa (g : RegularGrammar) : g.toNfa.numStates = g.finalState + 1 := by
  rw [Nfa.numStates, OrderedSet.size, toList_labels_toNfa, List.length_append]
  rfl

/-- The label of the state for a nonterminal is the nonterminal. -/
theorem getElem?_stateOf (h : name ∈ g.grammar.nonterminals) :
    g.grammar.nonterminals[g.stateOf name]? = some name := by
  obtain ⟨k, hk⟩ := List.mem_iff_getElem?.mp h
  have hlt : k < g.grammar.nonterminals.length := (List.getElem?_eq_some_iff.mp hk).1
  have hlabel : g.toNfa.findLabel? name = some k := by
    rw [Nfa.findLabel?, OrderedSet.idxOf?_eq_some_iff, OrderedSet.get?, toList_labels_toNfa,
      List.getElem?_append_left hlt, hk]
  rw [stateOf, hlabel, Option.getD_some, hk]

/-- The state for a nonterminal is not that for the end of a word. -/
theorem stateOf_lt (h : name ∈ g.grammar.nonterminals) : g.stateOf name < g.finalState :=
  (List.getElem?_eq_some_iff.mp (getElem?_stateOf h)).1

/-- Nonterminals with the same state are the same. -/
theorem eq_of_stateOf_eq (h : name ∈ g.grammar.nonterminals)
    (h' : other ∈ g.grammar.nonterminals) (he : g.stateOf name = g.stateOf other) :
    name = other := by
  have hname := getElem?_stateOf h
  rw [he, getElem?_stateOf h'] at hname
  exact (Option.some.inj hname).symm

/-! ### Transitions -/

/-- The transition that a production stands for, if its body has a terminal. -/
def move? (g : RegularGrammar) : String × Body → Option ((Nat × Symbol) × Nat)
  | (head, body) =>
    match body with
    | [.terminal c] => some ((g.stateOf head, .char c), g.finalState)
    | [.terminal c, .nonterminal name] => some ((g.stateOf head, .char c), g.stateOf name)
    | _ => none

/-- A transition goes on to the nonterminal of a body, or to the end of the word if there is
none. -/
theorem move?_eq_some_iff {body : Body} : g.move? (name, body) = some ((i, s), j) ↔
    i = g.stateOf name ∧ ∃ c, s = .char c ∧ (body = [.terminal c] ∧ j = g.finalState ∨
      ∃ target, body = [.terminal c, .nonterminal target] ∧ j = g.stateOf target) := by
  constructor
  · intro h
    unfold move? at h
    dsimp only at h
    split at h
    · next c =>
      cases h
      exact ⟨rfl, c, rfl, .inl ⟨rfl, rfl⟩⟩
    · next c target =>
      cases h
      exact ⟨rfl, c, rfl, .inr ⟨target, rfl, rfl⟩⟩
    · cases h
  · rintro ⟨rfl, c, rfl, ⟨rfl, rfl⟩ | ⟨target, rfl, rfl⟩⟩
    · rfl
    · rfl

/-- The transitions are added one after the other. -/
theorem delta_toNfa (g : RegularGrammar) :
    g.toNfa.delta = (g.grammar.rules.filterMap g.move?).foldl (fun delta move ↦
      delta.upsert move.1 fun targets ↦ (targets.getD ∅).insert move.2) ∅ := rfl

/-- The transitions are those of the bodies. -/
theorem mem_transitions_toNfa_iff_move? : (i, s, j) ∈ g.toNfa.transitions ↔
    ∃ name, ∃ body ∈ g.grammar.bodies name, g.move? (name, body) = some ((i, s), j) := by
  rw [Nfa.mem_transitions_iff_lists, delta_toNfa, foldl_iff (fun delta ↦ Table.Lists delta (i, s) j)
    fun move ↦ (i, s) = move.1 ∧ j = move.2, or_iff_right Table.not_lists_empty]
  · constructor
    · rintro ⟨⟨key, target⟩, h, rfl, rfl⟩
      obtain ⟨⟨name, body⟩, hr, hmove⟩ := List.mem_filterMap.mp h
      exact ⟨name, body, mem_rules_iff.mp hr, hmove⟩
    · rintro ⟨name, body, hb, hmove⟩
      exact ⟨((i, s), j), List.mem_filterMap.mpr ⟨_, mem_rules_iff.mpr hb, hmove⟩, rfl, rfl⟩
  · exact fun _ _ ↦ Table.lists_upsert_insert

/-- A transition is a body of its source. -/
theorem mem_transitions_toNfa : (i, s, j) ∈ g.toNfa.transitions ↔
    ∃ name c, i = g.stateOf name ∧ s = .char c ∧
      ([.terminal c] ∈ g.grammar.bodies name ∧ j = g.finalState ∨
        ∃ target, [.terminal c, .nonterminal target] ∈ g.grammar.bodies name ∧
          j = g.stateOf target) := by
  rw [mem_transitions_toNfa_iff_move?]
  simp only [move?_eq_some_iff]
  constructor
  · rintro ⟨name, body, hb, hi, c, hs, ⟨rfl, hj⟩ | ⟨target, rfl, hj⟩⟩
    · exact ⟨name, c, hi, hs, .inl ⟨hb, hj⟩⟩
    · exact ⟨name, c, hi, hs, .inr ⟨target, hb, hj⟩⟩
  · rintro ⟨name, c, hi, hs, ⟨hb, hj⟩ | ⟨target, hb, hj⟩⟩
    · exact ⟨name, _, hb, hi, c, hs, .inl ⟨rfl, hj⟩⟩
    · exact ⟨name, _, hb, hi, c, hs, .inr ⟨target, rfl, hj⟩⟩

/-- The state for the end of a word is accepting, and those of the nonterminals with the empty
body are. -/
theorem mem_accepting_toNfa : j ∈ g.toNfa.accepting ↔
    j = g.finalState ∨ ∃ name, [] ∈ g.grammar.bodies name ∧ j = g.stateOf name := by
  have haccepting : g.toNfa.accepting = (OrderedSet.ofList (g.grammar.rules.filterMap
      fun (head, body) ↦ if body.isEmpty then some (g.stateOf head) else none)).insert
        g.finalState := rfl
  rw [haccepting, OrderedSet.mem_insert, OrderedSet.mem_ofList, or_comm, List.mem_filterMap]
  refine or_congr Iff.rfl ?_
  constructor
  · rintro ⟨⟨name, body⟩, hr, h⟩
    dsimp only at h
    split at h
    · next hempty =>
      cases h
      rw [List.isEmpty_iff.mp hempty] at hr
      exact ⟨name, mem_rules_iff.mp hr, rfl⟩
    · cases h
  · rintro ⟨name, hb, rfl⟩
    exact ⟨(name, []), mem_rules_iff.mpr hb, rfl⟩

/-- A nonterminal with a body has a state of its own. -/
theorem mem_nonterminals_of_mem_bodies {body : Body} (h : body ∈ g.grammar.bodies name) :
    name ∈ g.grammar.nonterminals := Productions.mem_keys_of_mem_bodies h

section Nonterminal

variable (hname : name ∈ g.grammar.nonterminals)

include hname

/-- The transitions of a nonterminal are its bodies, and no others. -/
theorem mem_transitions_stateOf_iff : (g.stateOf name, s, j) ∈ g.toNfa.transitions ↔
    ∃ c, s = .char c ∧ ([.terminal c] ∈ g.grammar.bodies name ∧ j = g.finalState ∨
      ∃ target, [.terminal c, .nonterminal target] ∈ g.grammar.bodies name ∧
        j = g.stateOf target) := by
  rw [mem_transitions_toNfa]
  constructor
  · rintro ⟨other, c, he, hs, ⟨hb, hj⟩ | ⟨target, hb, hj⟩⟩
    · rw [eq_of_stateOf_eq hname (mem_nonterminals_of_mem_bodies hb) he]
      exact ⟨c, hs, .inl ⟨hb, hj⟩⟩
    · rw [eq_of_stateOf_eq hname (mem_nonterminals_of_mem_bodies hb) he]
      exact ⟨c, hs, .inr ⟨target, hb, hj⟩⟩
  · rintro ⟨c, hs, h⟩
    exact ⟨name, c, rfl, hs, h⟩

/-- A nonterminal is accepting when it has the empty body. -/
theorem stateOf_mem_accepting_iff :
    g.stateOf name ∈ g.toNfa.accepting ↔ [] ∈ g.grammar.bodies name := by
  rw [mem_accepting_toNfa, or_iff_right (stateOf_lt hname).ne]
  constructor
  · rintro ⟨other, hb, he⟩
    rwa [eq_of_stateOf_eq hname (mem_nonterminals_of_mem_bodies hb) he]
  · intro hb
    exact ⟨name, hb, rfl⟩

end Nonterminal

/-- Only states of nonterminals have targets. -/
theorem lt_finalState_of_targets? {targets : OrderedSet Nat}
    (h : g.toNfa.targets? i s = some targets) : i < g.finalState := by
  have hkey : (i, s) ∈ g.toNfa.delta.keys := Table.mem_keys_iff.mpr ⟨targets, h⟩
  rw [delta_toNfa,
    foldl_iff (fun delta ↦ (i, s) ∈ Table.keys delta) fun move ↦ (i, s) = move.1] at hkey
  · obtain ⟨⟨_, j⟩, hmove, rfl⟩ := hkey.resolve_left List.not_mem_nil
    obtain ⟨⟨name, body⟩, hr, hmove⟩ := List.mem_filterMap.mp hmove
    obtain ⟨rfl, _⟩ := move?_eq_some_iff.mp hmove
    exact stateOf_lt (mem_nonterminals_of_mem_bodies (mem_rules_iff.mp hr))
  · exact fun _ _ ↦ Table.mem_keys_upsert

/-- Every transition leaves the state of a nonterminal. -/
theorem lt_finalState_of_mem_transitions (h : (i, s, j) ∈ g.toNfa.transitions) :
    i < g.finalState := by
  obtain ⟨targets, ht, _⟩ := Nfa.mem_transitions.mp h
  exact lt_finalState_of_targets? ht

/-- The state for the end of a word is not left. -/
theorem eq_nil_of_path_finalState (h : g.toNfa.Path g.finalState w j) : w = [] := by
  cases h with
  | refl => rfl
  | skip h _ => exact absurd (lt_finalState_of_mem_transitions h) (Nat.lt_irrefl _)
  | read h _ => exact absurd (lt_finalState_of_mem_transitions h) (Nat.lt_irrefl _)

/-! ### Words -/

section WellFormed

variable (hg : g.WellFormed)

include hg

/-- A nonterminal of a body is a nonterminal of the grammar. -/
theorem WellFormed.mem_nonterminals
    (h : [.terminal c, .nonterminal other] ∈ g.grammar.bodies name) :
    other ∈ g.grammar.nonterminals :=
  (wellFormed_iff.mp hg.grammar).2.1 other (.of_mem h (by simp))

/-- A path from the state of a nonterminal to an accepting one spells a word of the nonterminal. -/
theorem WellFormed.language_of_path (h : g.toNfa.Path (g.stateOf name) w j)
    (hj : j ∈ g.toNfa.accepting) (hname : name ∈ g.grammar.nonterminals) :
    g.grammar.productions.Language name w := by
  generalize hi : g.stateOf name = i at h
  induction h generalizing name with
  | refl i =>
    rw [← hi, stateOf_mem_accepting_iff hname] at hj
    exact Productions.language_of_spells hj .nil
  | skip hmove _ _ =>
    rw [← hi, mem_transitions_stateOf_iff hname] at hmove
    obtain ⟨c, hs, _⟩ := hmove
    cases hs
  | read hmove hrest ih =>
    rw [← hi, mem_transitions_stateOf_iff hname] at hmove
    obtain ⟨_, hs, ⟨hb, rfl⟩ | ⟨target, hb, rfl⟩⟩ := hmove
    · cases hs
      rw [eq_nil_of_path_finalState hrest]
      exact Productions.language_of_spells hb (.terminal _ .nil)
    · cases hs
      have hw := ih hj (hg.mem_nonterminals hb) rfl
      exact Productions.language_of_spells hb (.terminal _ (Spells.single_iff.mpr hw))

/-- A word of a nonterminal is spelled by a path from its state to an accepting one. -/
theorem WellFormed.exists_path_of_language (h : g.grammar.productions.Language name w) :
    ∃ j ∈ g.toNfa.accepting, g.toNfa.Path (g.stateOf name) w j := by
  refine Productions.language_induction
    (motive := fun name w ↦ ∃ j ∈ g.toNfa.accepting, g.toNfa.Path (g.stateOf name) w j) ?_ h
  intro name body hb w hw
  have hname := mem_nonterminals_of_mem_bodies hb
  rcases isRegularBody_iff.mp (hg.isRegularBody name body hb) with
    rfl | ⟨c, rfl⟩ | ⟨c, target, rfl⟩
  · rw [Spells.nil_iff.mp hw]
    exact ⟨_, (stateOf_mem_accepting_iff hname).mpr hb, .refl _⟩
  · obtain ⟨v, rfl, hv⟩ := Spells.terminal_iff.mp hw
    rw [Spells.nil_iff.mp hv]
    have hmove := (mem_transitions_stateOf_iff hname).mpr ⟨c, rfl, .inl ⟨hb, rfl⟩⟩
    exact ⟨g.finalState, mem_accepting_toNfa.mpr (.inl rfl), .read hmove (.refl _)⟩
  · obtain ⟨v, rfl, hv⟩ := Spells.terminal_iff.mp hw
    obtain ⟨j, hj, hpath⟩ := Spells.single_iff.mp hv
    have hmove := (mem_transitions_stateOf_iff hname).mpr ⟨c, rfl, .inr ⟨target, hb, rfl⟩⟩
    exact ⟨j, hj, .read hmove hpath⟩

/-- The automaton spells the words of the start symbol. -/
theorem WellFormed.spells_toNfa_iff : g.toNfa.Spells w ↔ g.grammar.Generates w := by
  rw [generates_iff]
  constructor
  · rintro ⟨i, hi, j, hj, hpath⟩
    rw [OrderedSet.mem_singleton.mp hi] at hpath
    exact hg.language_of_path hpath hj (wellFormed_iff.mp hg.grammar).1
  · intro h
    obtain ⟨j, hj, hpath⟩ := hg.exists_path_of_language h
    exact ⟨_, OrderedSet.mem_singleton.mpr rfl, j, hj, hpath⟩

/-- Every transition reads a declared character. -/
theorem WellFormed.readsDeclared_toNfa : g.toNfa.ReadsDeclared := by
  have hterminals := (wellFormed_iff.mp hg.grammar).2.2
  intro i c j h
  obtain ⟨name, a, _, hs, ⟨hb, _⟩ | ⟨target, hb, _⟩⟩ := mem_transitions_toNfa.mp h
  · cases hs
    exact hterminals c (.of_mem hb (by simp))
  · cases hs
    exact hterminals c (.of_mem hb (by simp))

/-- Every state that is referred to has a label. -/
theorem WellFormed.isLabelled_toNfa : g.toNfa.IsLabelled := by
  have hlt {name : String} (h : name ∈ g.grammar.nonterminals) :
      g.stateOf name < g.finalState + 1 := (stateOf_lt h).trans (Nat.lt_succ_self _)
  rw [Nfa.isLabelled_iff, numStates_toNfa]
  refine ⟨fun i hi ↦ ?_, fun i hi ↦ ?_, fun i s targets ht ↦ ?_⟩
  · rw [OrderedSet.mem_singleton.mp hi]
    exact hlt (wellFormed_iff.mp hg.grammar).1
  · rcases mem_accepting_toNfa.mp hi with rfl | ⟨name, hb, rfl⟩
    · exact Nat.lt_succ_self _
    · exact hlt (mem_nonterminals_of_mem_bodies hb)
  · have hi := lt_finalState_of_targets? ht
    refine ⟨hi.trans (Nat.lt_succ_self _), fun j hj ↦ ?_⟩
    have hmove := Nfa.mem_transitions.mpr ⟨targets, ht, hj⟩
    obtain ⟨name, c, _, _, ⟨_, rfl⟩ | ⟨target, hb, rfl⟩⟩ := mem_transitions_toNfa.mp hmove
    · exact Nat.lt_succ_self _
    · exact hlt (hg.mem_nonterminals hb)

/-- The automaton of a regular grammar accepts the words that the grammar generates, whatever the
names of the nonterminals are. -/
theorem accepts_toNfa_iff_generates (w : List Char) :
    g.toNfa.accepts w = true ↔ g.grammar.Generates w := by
  rw [Nfa.accepts_iff_spells hg.readsDeclared_toNfa, hg.spells_toNfa_iff]

/-- The grammar that is read off the automaton generates the words of the grammar that the automaton
is made of. -/
theorem WellFormed.generates_ofNfa_toNfa_iff :
    (ofNfa g.toNfa).grammar.Generates w ↔ g.grammar.Generates w := by
  rw [generates_ofNfa_iff hg.isLabelled_toNfa hg.readsDeclared_toNfa,
    Nfa.accepts_iff_spells hg.readsDeclared_toNfa, hg.spells_toNfa_iff]

end WellFormed

/-- A grammar whose nonterminals have the names that the state for the end of a word has otherwise,
and with a nonterminal that has no bodies: `qf: aqf | bqf' | aB` and `qf': ε | b`. -/
def borrowedNames : Grammar where
  start := "qf"
  terminals := .ofSet (.ofList ['a', 'b'])
  productions := .ofList [
    ("qf", .ofList [[.terminal 'a', .nonterminal "qf"], [.terminal 'b', .nonterminal "qf'"],
      [.terminal 'a', .nonterminal "B"]]),
    ("qf'", .ofList [[], [.terminal 'b']]),
    ("B", ∅)]

/-- The state for the end of a word takes a name that no nonterminal has. -/
theorem accepts_toNfa_iff_generates_borrowedNames :
    ofGrammar borrowedNames = .ok ⟨borrowedNames⟩ ∧
      (⟨borrowedNames⟩ : RegularGrammar).WellFormed ∧
      (toNfa ⟨borrowedNames⟩).labels.toList = ["qf", "qf'", "B", "qf''"] ∧
      (∀ w, (toNfa ⟨borrowedNames⟩).accepts w = true ↔ borrowedNames.Generates w) ∧
      borrowedNames.Generates ['a', 'b'] := by
  have hgrammar : ofGrammar borrowedNames = .ok ⟨borrowedNames⟩ := by decide
  have hg := wellFormed_of_ofGrammar hgrammar (by decide)
  have hwords := accepts_toNfa_iff_generates hg
  have hpath : (toNfa ⟨borrowedNames⟩).Path 0 ['a', 'b'] 1 :=
    .read (j := 0) (by decide +kernel) (.read (by decide +kernel) (.refl 1))
  have hspells : (toNfa ⟨borrowedNames⟩).Spells ['a', 'b'] :=
    ⟨0, by decide +kernel, 1, by decide +kernel, hpath⟩
  exact ⟨hgrammar, hg, by decide +kernel, hwords,
    (hwords _).mp ((Nfa.accepts_iff_spells hg.readsDeclared_toNfa).mpr hspells)⟩

end RegularGrammar

end LanguageTheory
