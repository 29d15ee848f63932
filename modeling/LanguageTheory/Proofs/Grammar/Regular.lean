import LanguageTheory.Grammar.Regular
import LanguageTheory.Proofs.Grammar.Membership
import LanguageTheory.Proofs.Nfa.EpsilonFree
import Std.Data.String.ToNat

/-!
# Grammars of automata

The nonterminal for a state has the words that lead from the state to an accepting one: every body
is a transition, or ends a word in an accepting state. A fresh start symbol has the words of all
initial states.
-/

namespace LanguageTheory

namespace RegularGrammar

open Grammar

variable {n : Nfa} {names heads : List String} {p : Productions} {name start : String}
  {body : Body} {c : Char} {i j : Nat} {w : List Char}

/-! ### Bodies of a regular grammar -/

/-- The forms of a body: no token, a terminal, or a terminal and a nonterminal. -/
theorem isRegularBody_iff : isRegularBody body = true ↔ body = [] ∨
    (∃ c, body = [.terminal c]) ∨ ∃ c name, body = [.terminal c, .nonterminal name] := by
  unfold isRegularBody
  split <;> simp_all

/-- What every regular grammar of this library satisfies: its grammar is well formed, and its bodies
have the forms of a regular grammar. -/
structure WellFormed (g : RegularGrammar) : Prop where
  grammar : g.grammar.WellFormed
  isRegularBody : ∀ name, ∀ body ∈ g.grammar.bodies name, isRegularBody body = true

/-- A grammar is taken as a regular one when its bodies have the forms of a regular grammar, and it
stays the same. -/
theorem ofGrammar_eq_ok_iff {g : Grammar} {r : RegularGrammar} : ofGrammar g = .ok r ↔
    (∀ name, ∀ body ∈ g.bodies name, isRegularBody body = true) ∧ r = ⟨g⟩ := by
  unfold ofGrammar
  constructor
  · intro h
    split at h
    · cases h
    · next hnone =>
      cases h
      refine ⟨fun name body hb ↦ ?_, rfl⟩
      have hbody := List.find?_eq_none.mp hnone (name, body) (mem_rules_iff.mpr hb)
      simpa using hbody
  · rintro ⟨h, rfl⟩
    have hnone : g.rules.find? (fun rule ↦ !isRegularBody rule.2) = none := by
      rw [List.find?_eq_none]
      rintro ⟨name, body⟩ hr
      simp [h name body (mem_rules_iff.mp hr)]
    rw [hnone]

/-- A well-formed grammar that is taken as a regular one is a well-formed regular grammar. -/
theorem wellFormed_of_ofGrammar {g : Grammar} {r : RegularGrammar} (h : ofGrammar g = .ok r)
    (hg : g.WellFormed) : r.WellFormed := by
  obtain ⟨hbodies, rfl⟩ := ofGrammar_eq_ok_iff.mp h
  exact ⟨hg, hbodies⟩

/-! ### Names of states -/

/-- There is a name for each state. -/
theorem length_stateNames (n : Nfa) : (stateNames n).length = n.numStates := by
  unfold stateNames
  dsimp only
  split
  · rfl
  · rw [List.length_map, List.length_range]
    rfl

/-- States have different names. -/
theorem nodup_stateNames (n : Nfa) : (stateNames n).Nodup := by
  unfold stateNames
  dsimp only
  split
  · exact n.labels.nodup
  · refine List.Nodup.map (fun i j hij ↦ ?_) List.nodup_range
    exact Nat.repr_inj.mp ((String.append_right_inj "q").mp hij)

-- One label is a terminal, so none of them is used.
example : stateNames { Nfa.loops with labels := .ofList ["first", "a", "third"] } =
    ["q0", "q1", "q2"] := by decide +kernel

/-- The name of a state is listed. -/
theorem nameAt_mem (hi : i < names.length) : nameAt names i ∈ names := by
  rw [nameAt, List.getElem?_eq_getElem hi]
  exact List.getElem_mem hi

/-- States with the same name are the same. -/
theorem eq_of_nameAt_eq (hnames : names.Nodup) (hi : i < names.length) (hj : j < names.length)
    (h : nameAt names i = nameAt names j) : i = j := by
  rw [nameAt, nameAt, List.getElem?_eq_getElem hi, List.getElem?_eq_getElem hj] at h
  exact hnames.getElem_inj_iff.mp h

/-! ### Productions of states -/

/-- The bodies for a transition. -/
theorem mem_transitionBodies : body ∈ transitionBodies n names c j ↔
    body = [.terminal c, .nonterminal (nameAt names j)] ∨
      j ∈ n.accepting ∧ body = [.terminal c] := by
  unfold transitionBodies
  dsimp only
  split
  · next h =>
    have hj : j ∈ n.accepting := OrderedSet.contains_iff.mp h
    simp [hj]
  · next h =>
    have hj : j ∉ n.accepting := fun hj ↦ h (OrderedSet.contains_iff.mpr hj)
    simp [hj]

/-- A table of names alone has no bodies. -/
theorem notMem_bodies_of_names :
    body ∉ Productions.bodies (Table.ofList (names.map fun name ↦ (name, ∅))) name := by
  intro hb
  obtain ⟨bodies, hbodies, hb⟩ := Productions.mem_bodies_iff.mp hb
  have hempty : ∀ name (bodies : OrderedSet Body),
      (name, bodies) ∈ names.map (fun name ↦ (name, ∅)) → bodies = ∅ := by
    intro name bodies h
    obtain ⟨_, _, he⟩ := List.mem_map.mp h
    cases he
    rfl
  rw [Table.get?_ofList_iff fun name s t hs ht ↦
    (hempty name s hs).trans (hempty name t ht).symm] at hbodies
  rw [hempty name bodies hbodies] at hb
  exact OrderedSet.notMem_empty body hb

/-- The bodies after several bodies were added. -/
theorem mem_bodies_addAll {head : String} {bodies : List Body} :
    body ∈ (bodies.foldl (fun p body ↦ p.add head body) p).bodies name ↔
      body ∈ p.bodies name ∨ name = head ∧ body ∈ bodies := by
  rw [foldl_iff (fun p ↦ body ∈ Productions.bodies p name) fun new ↦ name = head ∧ body = new]
  · simp [and_comm]
  · exact fun _ _ ↦ Productions.mem_bodies_add

/-- The bodies of a state are those of its transitions, and the empty one if it is accepting. -/
theorem mem_bodies_stateProductions : body ∈ (stateProductions n names).bodies name ↔
    (∃ i c j, (i, Symbol.char c, j) ∈ n.transitions ∧ name = nameAt names i ∧
      body ∈ transitionBodies n names c j) ∨
    ∃ i ∈ n.accepting, name = nameAt names i ∧ body = [] := by
  unfold stateProductions
  dsimp only
  rw [foldl_iff (fun p ↦ body ∈ Productions.bodies p name) fun i ↦
      name = nameAt names i ∧ body = [],
    foldl_iff (fun p ↦ body ∈ Productions.bodies p name) fun move ↦ ∃ c,
      move.2.1 = Symbol.char c ∧ name = nameAt names move.1 ∧
        body ∈ transitionBodies n names c move.2.2,
    or_iff_right notMem_bodies_of_names]
  · refine or_congr ?_ Iff.rfl
    constructor
    · rintro ⟨⟨i, s, j⟩, h, c, hs, hname, hbody⟩
      cases hs
      exact ⟨i, c, j, h, hname, hbody⟩
    · rintro ⟨i, c, j, h, hname, hbody⟩
      exact ⟨(i, .char c, j), h, c, rfl, hname, hbody⟩
  · rintro p ⟨i, s, j⟩
    cases s with
    | epsilon => simp
    | char c => simp [mem_bodies_addAll]
  · exact fun _ _ ↦ Productions.mem_bodies_add

/-- A state has a body for each of its transitions. -/
theorem mem_bodies_of_mem_transitions (names : List String)
    (h : (i, Symbol.char c, j) ∈ n.transitions) :
    [.terminal c, .nonterminal (nameAt names j)] ∈
      (stateProductions n names).bodies (nameAt names i) :=
  mem_bodies_stateProductions.mpr
    (.inl ⟨i, c, j, h, rfl, mem_transitionBodies.mpr (.inl rfl)⟩)

/-- An accepting state has the empty body. -/
theorem nil_mem_bodies (names : List String) (h : i ∈ n.accepting) :
    [] ∈ (stateProductions n names).bodies (nameAt names i) :=
  mem_bodies_stateProductions.mpr (.inr ⟨i, h, rfl, rfl⟩)

/-- Every state has an entry. -/
theorem mem_keys_stateProductions (h : name ∈ names) :
    name ∈ Table.keys (stateProductions n names) := by
  have hadd {p : Productions} (head : String) (body : Body) (hp : name ∈ Table.keys p) :
      name ∈ Table.keys (p.add head body) := Productions.mem_keys_add.mpr (.inl hp)
  refine List.foldlRecOn (motive := fun p ↦ name ∈ Table.keys p) _ _ ?_
    fun p hp i _ ↦ hadd _ _ hp
  refine List.foldlRecOn (motive := fun p ↦ name ∈ Table.keys p) _ _ ?_ ?_
  · exact Table.mem_keys_ofList.mpr (by simpa using h)
  · rintro p hp ⟨i, s, j⟩ _
    cases s with
    | epsilon => exact hp
    | char c =>
      exact List.foldlRecOn (motive := fun p ↦ name ∈ Table.keys p) _ _ hp
        fun p hp body _ ↦ hadd _ _ hp

/-- The nonterminals of bodies are those of targets, and their terminals those of transitions. -/
theorem uses_stateProductions {t : Token} (h : (stateProductions n names).Uses t) :
    ∃ i c j, (i, Symbol.char c, j) ∈ n.transitions ∧
      (t = .terminal c ∨ t = .nonterminal (nameAt names j)) := by
  obtain ⟨name, body, hb, ht⟩ := h
  rcases mem_bodies_stateProductions.mp hb with ⟨i, c, j, hmove, _, hbody⟩ | ⟨_, _, _, rfl⟩
  · refine ⟨i, c, j, hmove, ?_⟩
    rcases mem_transitionBodies.mp hbody with rfl | ⟨_, rfl⟩
    · simpa using ht
    · exact .inl (List.mem_singleton.mp ht)
  · cases ht

/-- The bodies have the forms of a regular grammar. -/
theorem isRegularBody_of_mem_bodies (h : body ∈ (stateProductions n names).bodies name) :
    isRegularBody body = true := by
  rcases mem_bodies_stateProductions.mp h with ⟨i, c, j, _, _, hbody⟩ | ⟨_, _, _, rfl⟩
  · rcases mem_transitionBodies.mp hbody with rfl | ⟨_, rfl⟩
    · rfl
    · rfl
  · rfl

section Labelled

variable (hn : n.IsLabelled) (hfree : n.hasEpsilonMoves = false)

include hn

/-- The nonterminals of bodies have entries. -/
theorem closed_stateProductions : (stateProductions n (stateNames n)).Closed := by
  intro name h
  obtain ⟨i, c, j, hmove, ht⟩ := uses_stateProductions h
  rcases ht with ht | ht
  · cases ht
  · cases ht
    have hj := (hn.lt_of_mem_transitions hmove).2
    rw [← length_stateNames] at hj
    exact mem_keys_stateProductions (nameAt_mem hj)

include hfree

/-- The nonterminal of a state has the words that lead from it to an accepting state. -/
theorem language_stateProductions_iff (hi : i < n.numStates) :
    (stateProductions n (stateNames n)).Language (nameAt (stateNames n) i) w ↔
      ∃ j ∈ n.accepting, n.Path i w j := by
  have hinj {i j : Nat} (hi : i < n.numStates) (hj : j < n.numStates)
      (h : nameAt (stateNames n) i = nameAt (stateNames n) j) : i = j := by
    rw [← length_stateNames] at hi hj
    exact eq_of_nameAt_eq (nodup_stateNames n) hi hj h
  constructor
  · -- The interpretation that gives each state its words is closed under the bodies.
    intro h
    refine Productions.language_induction (motive := fun name w ↦ ∀ i < n.numStates,
      name = nameAt (stateNames n) i → ∃ j ∈ n.accepting, n.Path i w j) ?_ h i hi rfl
    intro name body hb w hw i hi hname
    rcases mem_bodies_stateProductions.mp hb with
      ⟨k, c, j, hmove, hk, hbody⟩ | ⟨k, haccepting, hk, rfl⟩
    · obtain ⟨hklt, hj⟩ := hn.lt_of_mem_transitions hmove
      cases hinj hi hklt (hname.symm.trans hk)
      rcases mem_transitionBodies.mp hbody with rfl | ⟨haccepting, rfl⟩
      · obtain ⟨v, rfl, hv⟩ := Spells.terminal_iff.mp hw
        obtain ⟨l, hl, hjl⟩ := Spells.single_iff.mp hv j hj rfl
        exact ⟨l, hl, .read hmove hjl⟩
      · obtain ⟨v, rfl, hv⟩ := Spells.terminal_iff.mp hw
        rw [Spells.nil_iff.mp hv]
        exact ⟨j, haccepting, .read hmove (.refl j)⟩
    · have hlt := (Nfa.isLabelled_iff.mp hn).2.1 k haccepting
      cases hinj hi hlt (hname.symm.trans hk)
      rw [Spells.nil_iff.mp hw]
      exact ⟨i, haccepting, .refl i⟩
  · rintro ⟨j, haccepting, hpath⟩
    clear hi
    induction hpath with
    | refl j => exact Productions.language_of_spells (nil_mem_bodies _ haccepting) .nil
    | skip h _ _ => exact absurd h (Nfa.epsilon_notMem_transitions hfree)
    | @read i k j c w hmove _ ih =>
      exact Productions.language_of_spells (mem_bodies_of_mem_transitions _ hmove)
        (.terminal c (Spells.single_iff.mpr (ih haccepting)))

end Labelled

/-! ### A start symbol for several states -/

/-- The new nonterminal has an entry, as the others have. -/
theorem mem_keys_withJoin :
    name ∈ Table.keys (withJoin p start heads) ↔ name ∈ p.keys ∨ name = start :=
  Productions.mem_keys_insertMany_entries

/-- The new nonterminal has the bodies of the given ones, and the others keep theirs. -/
theorem mem_bodies_withJoin (hstart : start ∉ p.keys) :
    body ∈ (withJoin p start heads).bodies name ↔
      body ∈ p.bodies name ∨ name = start ∧ ∃ head ∈ heads, body ∈ p.bodies head := by
  rw [withJoin, Productions.mem_bodies_insertMany_entries hstart, OrderedSet.mem_ofList,
    List.mem_flatMap]

/-- The tokens of bodies stay the same. -/
theorem uses_withJoin {t : Token} (hstart : start ∉ p.keys)
    (h : (withJoin p start heads).Uses t) : p.Uses t := by
  obtain ⟨name, body, hb, ht⟩ := h
  rcases (mem_bodies_withJoin hstart).mp hb with hb | ⟨_, head, _, hb⟩
  · exact .of_mem hb ht
  · exact .of_mem hb ht

/-- The new nonterminal has the words of the given ones. -/
theorem language_withJoin_iff (hclosed : p.Closed) (hstart : start ∉ p.keys) :
    (withJoin p start heads).Language start w ↔ ∃ head ∈ heads, p.Language head w := by
  constructor
  · intro h
    -- No body has the new nonterminal, so its words need not be those of the old productions.
    have hwords := Productions.language_induction (motive := fun name w ↦
      if name = start then ∃ head ∈ heads, p.Language head w else p.Language name w) ?_ h
    · rwa [if_pos rfl] at hwords
    · intro name body hb w hw
      have hold {head : String} (hb : body ∈ p.bodies head) : p.Language head w := by
        refine Productions.language_of_spells hb (hw.mono fun m hm v hv ↦ ?_)
        have hm' : m ≠ start := fun he ↦ hstart (he ▸ hclosed m (.of_mem hb hm))
        rwa [if_neg hm'] at hv
      rcases (mem_bodies_withJoin hstart).mp hb with hb | ⟨rfl, head, hhead, hb⟩
      · have hname : name ≠ start :=
          fun he ↦ hstart (he ▸ Productions.mem_keys_of_mem_bodies hb)
        rw [if_neg hname]
        exact hold hb
      · rw [if_pos rfl]
        exact ⟨head, hhead, hold hb⟩
  · rintro ⟨head, hhead, body, hb, hw⟩
    refine Productions.language_of_spells
      ((mem_bodies_withJoin hstart).mpr (.inr ⟨rfl, head, hhead, hb⟩)) ?_
    refine (Productions.yields_iff_spells.mp hw).mono fun name _ v hv ↦ ?_
    exact Productions.language_mono
      (fun _ _ hb ↦ (mem_bodies_withJoin hstart).mpr (.inl hb)) hv

/-! ### The grammar -/

section Labelled

variable (hn : n.IsLabelled)

include hn

/-- The grammar of an automaton that reads declared characters is well formed. -/
theorem wellFormed_ofEpsilonFree (hread : n.ReadsDeclared) : (ofEpsilonFree n).WellFormed := by
  have hclosed := closed_stateProductions hn
  have hterminals : ∀ c, (stateProductions n (stateNames n)).Uses (.terminal c) →
      c ∈ n.alphabet := by
    intro c h
    obtain ⟨i, a, j, hmove, ht⟩ := uses_stateProductions h
    rcases ht with ht | ht
    · cases ht
      exact hread i c j hmove
    · cases ht
  have hbodies : ∀ name, ∀ body ∈ (stateProductions n (stateNames n)).bodies name,
      isRegularBody body = true := fun _ _ ↦ isRegularBody_of_mem_bodies
  unfold ofEpsilonFree
  dsimp only
  split
  · next start hsingle =>
    refine ⟨wellFormed_iff.mpr ⟨?_, hclosed, hterminals⟩, hbodies⟩
    have hstart : start ∈ n.initial.toList.map (nameAt (stateNames n)) := by
      rw [hsingle]
      exact List.mem_singleton.mpr rfl
    obtain ⟨i, hi, rfl⟩ := List.mem_map.mp hstart
    have hlt := (Nfa.isLabelled_iff.mp hn).1 i hi
    rw [← length_stateNames] at hlt
    exact mem_keys_stateProductions (nameAt_mem hlt)
  · have hfresh := freshName_notMem "S" (stateProductions n (stateNames n)).keys
    refine ⟨wellFormed_iff.mpr ⟨mem_keys_withJoin.mpr (.inr rfl),
      fun name h ↦ mem_keys_withJoin.mpr (.inl (hclosed name (uses_withJoin hfresh h))),
      fun c h ↦ hterminals c (uses_withJoin hfresh h)⟩, fun name body hb ↦ ?_⟩
    rcases (mem_bodies_withJoin hfresh).mp hb with hb | ⟨_, head, _, hb⟩
    · exact hbodies name body hb
    · exact hbodies head body hb

/-- The grammar generates the words that lead from an initial to an accepting state. -/
theorem generates_ofEpsilonFree_iff (hfree : n.hasEpsilonMoves = false) :
    (ofEpsilonFree n).grammar.Generates w ↔ n.Spells w := by
  have hheads : (∃ head ∈ n.initial.toList.map (nameAt (stateNames n)),
      (stateProductions n (stateNames n)).Language head w) ↔ n.Spells w := by
    simp only [Nfa.Spells, List.mem_map, exists_exists_and_eq_and]
    refine exists_congr fun i ↦ and_congr_right fun hi ↦ ?_
    exact language_stateProductions_iff hn hfree ((Nfa.isLabelled_iff.mp hn).1 i hi)
  rw [generates_iff, ← hheads]
  unfold ofEpsilonFree
  dsimp only
  split
  · next start hsingle => simp [hsingle]
  · exact language_withJoin_iff (closed_stateProductions hn) (freshName_notMem _ _)

/-! ### Transitions on the empty word -/

omit hn in
/-- Every transition of the automaton from which the grammar is read off reads a character. -/
theorem hasEpsilonMoves_epsilonFree (n : Nfa) : (epsilonFree n).hasEpsilonMoves = false := by
  unfold epsilonFree
  split
  · exact Nfa.hasEpsilonMoves_removeEpsilon n
  · next hfree => exact Bool.eq_false_iff.mpr hfree

omit hn in
/-- It reads declared characters if the given one does. -/
theorem readsDeclared_epsilonFree (hread : n.ReadsDeclared) : (epsilonFree n).ReadsDeclared := by
  unfold epsilonFree
  split
  · exact Nfa.readsDeclared_removeEpsilon n
  · exact hread

/-- Its states have labels if those of the given one have. -/
theorem isLabelled_epsilonFree : (epsilonFree n).IsLabelled := by
  unfold epsilonFree
  split
  · exact hn.removeEpsilon
  · exact hn

/-- It accepts the same words as the given one. -/
theorem accepts_epsilonFree (w : List Char) : (epsilonFree n).accepts w = n.accepts w := by
  unfold epsilonFree
  split
  · exact Nfa.accepts_removeEpsilon hn w
  · rfl

/-- The grammar of an automaton is defined when all states have labels. -/
theorem ofNfa?_eq_some : ofNfa? n = some (ofNfa n) := if_pos (isLabelled_epsilonFree hn)

/-- The grammar of an automaton that reads declared characters is well formed. -/
theorem wellFormed_ofNfa (hread : n.ReadsDeclared) : (ofNfa n).WellFormed :=
  wellFormed_ofEpsilonFree (isLabelled_epsilonFree hn) (readsDeclared_epsilonFree hread)

/-- The grammar of an automaton that reads declared characters generates the accepted words. -/
theorem generates_ofNfa_iff (hread : n.ReadsDeclared) :
    (ofNfa n).grammar.Generates w ↔ n.accepts w = true := by
  rw [ofNfa, generates_ofEpsilonFree_iff (isLabelled_epsilonFree hn)
    (hasEpsilonMoves_epsilonFree n), ← accepts_epsilonFree hn,
    Nfa.accepts_iff_spells (readsDeclared_epsilonFree hread)]

/-- The grammar of an automaton that reads declared characters accepts the same words. -/
theorem accepts_ofNfa (hread : n.ReadsDeclared) (w : List Char) :
    (ofNfa n).grammar.accepts w = n.accepts w := by
  rw [Bool.eq_iff_iff, accepts_iff_language (wellFormed_ofNfa hn hread).grammar, ← generates_iff,
    generates_ofNfa_iff hn hread]

/-- An automaton whose states have labels and which reads declared characters, as every automaton
does that the library makes, has a regular grammar: its bodies are empty, a terminal, or a terminal
and a nonterminal, all of them declared, and it generates the accepted words. -/
theorem wellFormed_and_generates_ofNfa (hread : n.ReadsDeclared) :
    ofNfa? n = some (ofNfa n) ∧ (ofNfa n).WellFormed ∧
      ∀ w, (ofNfa n).grammar.Generates w ↔ n.accepts w = true :=
  ⟨ofNfa?_eq_some hn, wellFormed_ofNfa hn hread, fun _ ↦ generates_ofNfa_iff hn hread⟩

end Labelled

/-- The grammar of an automaton with two initial states; transitions on the empty word lead from the
first one to the accepting state and back. -/
theorem wellFormed_and_generates_ofNfa_loops :
    Nfa.loops.IsLabelled ∧ Nfa.loops.ReadsDeclared ∧
      ofNfa? Nfa.loops = some (ofNfa Nfa.loops) ∧ (ofNfa Nfa.loops).WellFormed ∧
      (∀ w, (ofNfa Nfa.loops).grammar.Generates w ↔ Nfa.loops.accepts w = true) ∧
      (ofNfa Nfa.loops).grammar.Generates ['a', 'b'] := by
  have hlabels : Nfa.loops.IsLabelled := by decide
  have hread : Nfa.loops.ReadsDeclared := by decide
  obtain ⟨hsome, hwell, hwords⟩ := wellFormed_and_generates_ofNfa hlabels hread
  have hend : Nfa.loops.Path 2 ['b'] 1 :=
    .read (j := 0) (by decide) (.skip (by decide) (.refl 1))
  have hpath : Nfa.loops.Path 0 ['a', 'b'] 1 :=
    .skip (j := 1) (by decide) (.read (by decide) hend)
  have hspells : Nfa.loops.Spells ['a', 'b'] := ⟨0, by decide, 1, by decide, hpath⟩
  exact ⟨hlabels, hread, hsome, hwell, hwords,
    (hwords _).mpr ((Nfa.accepts_iff_spells hread).mpr hspells)⟩

end RegularGrammar

end LanguageTheory
