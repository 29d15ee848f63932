import LanguageTheory.Proofs.Collections.Table
import LanguageTheory.Proofs.Dfa.Minimization
import LanguageTheory.Proofs.Nfa.Subsets
import LanguageTheory.Proofs.Regex.WordGraph
import LanguageTheory.Regex.Thompson
import Std.Data.String.ToNat

/-!
# The words of woven automata

Weaving an expression between two states has the effect of arcs for its words between them, however
the states are connected otherwise. The states between are fresh, so each can be eliminated.
-/

namespace LanguageTheory

open Computability

/-- What a symbol contributes to a word. -/
def Symbol.word : Symbol → List Char
  | epsilon => []
  | char c => [c]

/-! ### The graph of an automaton -/

namespace Nfa

/-- The graph of the transitions. -/
def graph (n : Nfa) : WordGraph := ⟨fun i w j ↦ ∃ s, (i, s, j) ∈ n.transitions ∧ w = s.word⟩

/-- Paths are walks along transitions. -/
theorem path_iff_walk {n : Nfa} {i j : Nat} {w : List Char} :
    n.Path i w j ↔ n.graph.Walk i w j := by
  constructor
  · intro h
    induction h with
    | refl i => exact .refl i
    | skip h _ ih =>
      have harc : n.graph.Arc _ [] _ := ⟨_, h, rfl⟩
      exact .step harc ih
    | read h _ ih =>
      have harc : n.graph.Arc _ [_] _ := ⟨_, h, rfl⟩
      exact .step harc ih
  · intro h
    induction h with
    | refl i => exact .refl i
    | step h _ ih =>
      obtain ⟨s, hs, rfl⟩ := h
      cases s with
      | epsilon => exact .skip hs ih
      | char c => exact .read hs ih

end Nfa

namespace Weave

open WordGraph

variable {b : Weave} {i j k : Nat}

/-! ### Fresh states -/

/-- The search for a fresh number goes up. -/
theorem le_freshNumber (k : Nat) (used : List String) : k ≤ freshNumber k used := by
  fun_induction freshNumber k used with
  | case1 k used h ih => exact Nat.le_of_succ_le ih
  | case2 k used h => exact Nat.le_refl k

/-- A fresh number is not in use. -/
theorem toString_freshNumber_notMem (k : Nat) (used : List String) :
    toString (freshNumber k used) ∉ used := by
  fun_induction freshNumber k used with
  | case1 k used h ih =>
    have hlt := le_freshNumber (k + 1) (used.erase (toString k))
    have hne : toString (freshNumber (k + 1) (used.erase (toString k))) ≠ toString k :=
      fun he ↦ Nat.ne_of_gt hlt (Nat.repr_inj.mp he)
    intro hm
    exact ih ((List.mem_erase_of_ne hne).mpr hm)
  | case2 k used h => exact h

/-- Number of states. -/
def numStates (b : Weave) : Nat := b.labels.size

/-- A fresh state is one state more. -/
theorem numStates_fresh (b : Weave) : b.fresh.2.numStates = b.numStates + 1 := by
  have hfresh := toString_freshNumber_notMem b.labels.size b.labels.toList
  rw [fresh, numStates, OrderedSet.size, OrderedSet.toList_insert_of_notMem hfresh]
  simp [numStates, OrderedSet.size]

/-! ### Arcs -/

/-- The graph of the transitions. -/
def graph (b : Weave) : WordGraph :=
  ⟨fun i w j ↦ ∃ s targets, b.delta.get? (i, s) = some targets ∧ j ∈ targets ∧ w = s.word⟩

/-- A fresh state has no transitions. -/
@[simp]
theorem graph_fresh (b : Weave) : b.fresh.2.graph = b.graph := rfl

/-- The arcs are the listed transitions. -/
theorem arc_graph_iff {w : List Char} :
    b.graph.Arc i w j ↔ ∃ s, b.delta.Lists (i, s) j ∧ w = s.word := by
  constructor
  · rintro ⟨s, targets, ht, hj, hw⟩
    exact ⟨s, ⟨targets, ht, hj⟩, hw⟩
  · rintro ⟨s, ⟨targets, ht, hj⟩, hw⟩
    exact ⟨s, targets, ht, hj, hw⟩

/-- A new transition is one arc more. -/
theorem graph_connect (b : Weave) (i : Nat) (s : Symbol) (j : Nat) :
    (b.connect i s j).graph = b.graph ∪ arcs i {s.word} j := by
  ext i' w j'
  rw [arc_graph_iff]
  simp only [connect, Table.lists_upsert_insert]
  constructor
  · rintro ⟨s', h | ⟨he, rfl⟩, rfl⟩
    · exact Or.inl (arc_graph_iff.mpr ⟨s', h, rfl⟩)
    · cases he
      exact Or.inr ⟨rfl, rfl, rfl⟩
  · rintro (h | ⟨rfl, rfl, rfl⟩)
    · obtain ⟨s', hs', rfl⟩ := arc_graph_iff.mp h
      exact ⟨s', Or.inl hs', rfl⟩
    · exact ⟨s, Or.inr ⟨rfl, rfl⟩, rfl⟩

/-- A transition that reads nothing is an arc for the empty word. -/
theorem graph_connect_epsilon (b : Weave) (i j : Nat) :
    (b.connect i .epsilon j).graph = b.graph ∪ arcs i 1 j := graph_connect b i .epsilon j

/-- Transitions add no states. -/
@[simp]
theorem numStates_connect (b : Weave) (i : Nat) (s : Symbol) (j : Nat) :
    (b.connect i s j).numStates = b.numStates := rfl

/-! ### Weaving -/

/-- Concatenation weaves over a fresh state. -/
theorem thread_concatenation (b : Weave) (i j : Nat) (r s : Regex) :
    b.thread i j (.concatenation r s) =
      (b.fresh.2.thread i b.numStates r).thread b.numStates j s := rfl

/-- Repetition weaves around a fresh state. -/
theorem thread_star (b : Weave) (i j : Nat) (r : Regex) :
    b.thread i j (.star r) = ((b.fresh.2.connect i .epsilon b.numStates).thread b.numStates
      b.numStates r).connect b.numStates .epsilon j := rfl

/-- Weaving removes no states. -/
theorem numStates_le_thread (b : Weave) (i j : Nat) (r : Regex) :
    b.numStates ≤ (b.thread i j r).numStates := by
  induction r generalizing b i j with
  | epsilon => exact Nat.le_refl _
  | literal c => exact Nat.le_refl _
  | alternation r s ihr ihs => exact (ihr b i j).trans (ihs _ i j)
  | concatenation r s ihr ihs =>
    have hr := ihr b.fresh.2 i b.numStates
    have hs := ihs (b.fresh.2.thread i b.numStates r) b.numStates j
    rw [numStates_fresh] at hr
    rw [thread_concatenation]
    omega
  | star r ih =>
    have hr := ih (b.fresh.2.connect i .epsilon b.numStates) b.numStates b.numStates
    rw [numStates_connect, numStates_fresh] at hr
    rw [thread_star, numStates_connect]
    omega

/-! ### Characters -/

/-- Some transition reads a character. -/
def Reads (b : Weave) (c : Char) : Prop := ∃ i j, b.delta.Lists (i, .char c) j

/-- A fresh state reads nothing. -/
@[simp]
theorem reads_fresh {c : Char} : b.fresh.2.Reads c ↔ b.Reads c := Iff.rfl

/-- A new transition reads its symbol. -/
@[simp]
theorem reads_connect {s : Symbol} {c : Char} :
    (b.connect i s j).Reads c ↔ b.Reads c ∨ s = .char c := by
  unfold Reads connect
  simp only [Table.lists_upsert_insert]
  constructor
  · rintro ⟨i', j', h | ⟨he, _⟩⟩
    · exact .inl ⟨i', j', h⟩
    · cases he
      exact .inr rfl
  · rintro (⟨i', j', h⟩ | rfl)
    · exact ⟨i', j', .inl h⟩
    · exact ⟨i, j, .inr ⟨rfl, rfl⟩⟩

/-- A woven expression reads its literals. -/
theorem reads_thread {r : Regex} {c : Char} :
    (b.thread i j r).Reads c ↔ b.Reads c ∨ c ∈ r.literals := by
  induction r generalizing b i j with
  | epsilon => simp [thread, Regex.literals]
  | literal a => simp [thread, Regex.literals, eq_comm]
  | alternation r s ihr ihs => rw [thread, ihs, ihr, Regex.literals, List.mem_append, or_assoc]
  | concatenation r s ihr ihs =>
    rw [thread_concatenation, ihs, ihr, reads_fresh, Regex.literals, List.mem_append, or_assoc]
  | star r ih => simp [thread_star, ih, Regex.literals]

/-! ### Languages -/

/-- All transitions are between states. -/
def Closed (b : Weave) : Prop := b.graph.Within b.numStates

/-- A fresh state leaves the transitions between states. -/
theorem Closed.fresh (hb : b.Closed) : b.fresh.2.Closed :=
  WordGraph.Within.mono hb (by rw [numStates_fresh]; exact Nat.le_succ _)

/-- A new transition between states leaves all transitions between states. -/
theorem Closed.connect {s : Symbol} (hb : b.Closed) (hi : i < b.numStates) (hj : j < b.numStates) :
    (b.connect i s j).Closed := by
  rw [Closed, graph_connect]
  exact hb.union (within_arcs hi hj)

/-- Weaving between states leaves all transitions between states. -/
theorem Closed.thread {r : Regex} (hb : b.Closed) (hi : i < b.numStates) (hj : j < b.numStates) :
    (b.thread i j r).Closed := by
  induction r generalizing b i j with
  | epsilon => exact hb.connect hi hj
  | literal c => exact hb.connect hi hj
  | alternation r s ihr ihs =>
    have hle := numStates_le_thread b i j r
    exact ihs (ihr hb hi hj) (hi.trans_le hle) (hj.trans_le hle)
  | concatenation r s ihr ihs =>
    have hfresh := numStates_fresh b
    have hle := numStates_le_thread b.fresh.2 i b.numStates r
    rw [thread_concatenation]
    exact ihs (ihr hb.fresh (by omega) (by omega)) (by omega) (by omega)
  | star r ih =>
    have hfresh := numStates_fresh b
    have hconnect := numStates_connect b.fresh.2 i .epsilon b.numStates
    have hle := numStates_le_thread (b.fresh.2.connect i .epsilon b.numStates) b.numStates
      b.numStates r
    have hentered : (b.fresh.2.connect i .epsilon b.numStates).Closed :=
      hb.fresh.connect (by omega) (by omega)
    have hloop := ih hentered (i := b.numStates) (j := b.numStates) (by omega) (by omega)
    rw [thread_star]
    exact hloop.connect (by omega) (by omega)

/-- Weaving leaves no set of targets empty. -/
theorem filled_thread {r : Regex} (hb : b.delta.Filled) : (b.thread i j r).delta.Filled := by
  induction r generalizing b i j with
  | epsilon => exact hb.upsert_insert _ _
  | literal c => exact hb.upsert_insert _ _
  | alternation r s ihr ihs => exact ihs (ihr hb)
  | concatenation r s ihr ihs => exact ihs (ihr hb)
  | star r ih => exact (ih (hb.upsert_insert _ _)).upsert_insert _ _

/-- Between the states of an automaton, weaving an expression has the effect of arcs for its words,
whatever other arcs there are. -/
theorem walk_thread {r : Regex} (hb : b.Closed) (hi : i < b.numStates) (hj : j < b.numStates)
    {X : WordGraph} (hX : X.Within b.numStates) {s t : Nat} (hs : s < b.numStates)
    (ht : t < b.numStates) {w : List Char} :
    ((b.thread i j r).graph ∪ X).Walk s w t ↔
      (b.graph ∪ arcs i r.language j ∪ X).Walk s w t := by
  induction r generalizing b i j X s t w with
  | epsilon =>
    rw [thread, graph_connect]
    rfl
  | literal c =>
    rw [thread, graph_connect]
    rfl
  | alternation r r' ihr ihr' =>
    have hle := numStates_le_thread b i j r
    have harcs := within_arcs (L := r'.language) hi hj
    rw [thread, ihr' (hb.thread hi hj) (hi.trans_le hle) (hj.trans_le hle) (hX.mono hle)
      (hs.trans_le hle) (ht.trans_le hle), union_assoc, ihr hb hi hj (harcs.union hX) hs ht,
      Regex.language, arcs_add, union_assoc, union_assoc, union_assoc]
  | concatenation r r' ihr ihr' =>
    have hfresh := numStates_fresh b
    have hle := numStates_le_thread b.fresh.2 i b.numStates r
    have hfirst : (b.fresh.2.thread i b.numStates r).Closed :=
      hb.fresh.thread (by omega) (by omega)
    have hrest : (arcs b.numStates r'.language j ∪ X).Within b.fresh.2.numStates :=
      (within_arcs (by omega) (by omega)).union (hX.mono (by omega))
    rw [thread_concatenation,
      ihr' hfirst (by omega) (by omega) (hX.mono (by omega)) (by omega) (by omega), union_assoc,
      ihr hb.fresh (by omega) (by omega) hrest (by omega) (by omega), graph_fresh,
      walk_bypass hb hi hj hX hs ht]
    rfl
  | star r ih =>
    have hfresh := numStates_fresh b
    have hconnect := numStates_connect b.fresh.2 i .epsilon b.numStates
    have hentered : (b.fresh.2.connect i .epsilon b.numStates).Closed :=
      hb.fresh.connect (by omega) (by omega)
    have hrest : (arcs b.numStates 1 j ∪ X).Within
        (b.fresh.2.connect i .epsilon b.numStates).numStates :=
      (within_arcs (by omega) (by omega)).union (hX.mono (by omega))
    rw [thread_star, graph_connect_epsilon, union_assoc,
      ih hentered (by omega) (by omega) hrest (by omega) (by omega), graph_connect_epsilon,
      graph_fresh, walk_eliminate hb hi hj hX hs ht, one_mul, mul_one]
    rfl

/-- Without transitions there are no arcs. -/
theorem graph_mk_empty (labels : OrderedSet String) : (⟨labels, ∅⟩ : Weave).graph = ∅ := by
  ext i w j
  rw [arc_graph_iff]
  constructor
  · rintro ⟨s, hs, _⟩
    exact Table.not_lists_empty hs
  · exact False.elim

/-- Without transitions none leaves the states. -/
theorem closed_mk_empty (labels : OrderedSet String) : (⟨labels, ∅⟩ : Weave).Closed := by
  rw [Closed, graph_mk_empty]
  exact fun _ _ _ h ↦ h.elim

/-- An automaton with woven transitions has their graph. -/
theorem graph_eq_of_delta {n : Nfa} (h : n.delta = b.delta) : n.graph = b.graph := by
  ext i w j
  rw [arc_graph_iff, ← h]
  exact exists_congr fun s ↦ and_congr_left fun _ ↦ Nfa.mem_transitions_iff_lists

/-- An automaton with woven transitions has them between states. -/
theorem Closed.lt_of_mem_transitions {n : Nfa} {s : Symbol} (hb : b.Closed) (h : n.delta = b.delta)
    (hmove : (i, s, j) ∈ n.transitions) : i < b.numStates ∧ j < b.numStates := by
  have harc : n.graph.Arc i s.word j := ⟨s, hmove, rfl⟩
  rw [graph_eq_of_delta h] at harc
  exact hb i s.word j harc

/-- Without transitions nothing is read. -/
theorem not_reads_mk_empty (labels : OrderedSet String) (c : Char) :
    ¬ (⟨labels, ∅⟩ : Weave).Reads c := by
  rintro ⟨i, j, h⟩
  exact Table.not_lists_empty h

/-- An automaton with woven transitions reads what they read. -/
theorem reads_of_delta {n : Nfa} {c : Char} (h : n.delta = b.delta)
    (hmove : (i, .char c, j) ∈ n.transitions) : b.Reads c :=
  ⟨i, j, h ▸ Nfa.mem_transitions_iff_lists.mp hmove⟩

end Weave

namespace Regex

/-! ### Automata of expressions -/

/-- Two states without transitions, the first initial and the second accepting. -/
private def twoStates : Weave := ⟨OrderedSet.ofList ["0", "1"], ∅⟩

/-- The transitions of the automaton of an expression are woven between two states. -/
private theorem graph_toNfa (r : Regex) : r.toNfa.graph = (twoStates.thread 0 1 r).graph :=
  Weave.graph_eq_of_delta rfl

/-- The words that lead from the initial to the accepting state are those of the expression. -/
theorem spells_toNfa_iff {r : Regex} {w : List Char} : r.toNfa.Spells w ↔ w ∈ r.language := by
  have hempty : (∅ : WordGraph).Within twoStates.numStates := fun _ _ _ h ↦ h.elim
  have hwalk : ((twoStates.thread 0 1 r).graph ∪ ∅).Walk 0 w 1 ↔ _ :=
    Weave.walk_thread (Weave.closed_mk_empty _) (by decide) (by decide) hempty (by decide)
      (by decide)
  rw [WordGraph.union_empty, WordGraph.union_empty, twoStates, Weave.graph_mk_empty,
    WordGraph.empty_union, WordGraph.walk_arcs_iff Nat.zero_ne_one] at hwalk
  rw [← hwalk, ← twoStates, ← graph_toNfa, ← Nfa.path_iff_walk]
  constructor
  · rintro ⟨i, hi, j, hj, hij⟩
    rw [OrderedSet.mem_singleton.mp hi, OrderedSet.mem_singleton.mp hj] at hij
    exact hij
  · intro h
    exact ⟨0, OrderedSet.mem_singleton.mpr rfl, 1, OrderedSet.mem_singleton.mpr rfl, h⟩

/-- Every transition reads a character of a literal. -/
theorem readsDeclared_toNfa (r : Regex) : r.toNfa.ReadsDeclared := by
  intro i c j h
  have hreads : (twoStates.thread 0 1 r).Reads c := Weave.reads_of_delta rfl h
  rcases Weave.reads_thread.mp hreads with hempty | hc
  · exact absurd hempty (Weave.not_reads_mk_empty _ c)
  · exact OrderedSet.mem_ofList.mpr hc

/-- Every state that the automaton of an expression refers to has a label. -/
theorem isLabelled_toNfa (r : Regex) : r.toNfa.IsLabelled := by
  have hle : 2 ≤ r.toNfa.numStates := Weave.numStates_le_thread twoStates 0 1 r
  have hclosed : (twoStates.thread 0 1 r).Closed :=
    Weave.Closed.thread (Weave.closed_mk_empty _) (by decide) (by decide)
  refine Nfa.isLabelled_of_transitions (fun i hi ↦ ?_) (fun i hi ↦ ?_)
    (Weave.filled_thread Table.filled_empty) fun i s j hmove ↦ ?_
  · rw [OrderedSet.mem_singleton.mp hi]
    omega
  · rw [OrderedSet.mem_singleton.mp hi]
    omega
  · exact hclosed.lt_of_mem_transitions rfl hmove

/-- The automaton of an expression accepts the words of its language. -/
theorem accepts_toNfa_iff {r : Regex} {w : List Char} :
    r.toNfa.accepts w = true ↔ w ∈ r.language := by
  rw [Nfa.accepts_iff, ← Nfa.spells_iff, spells_toNfa_iff, and_iff_right_iff_imp]
  exact mem_alphabet_of_mem_language

/-- The automaton of an expression, the test for its words and its minimal deterministic automaton
accept the words of its language. -/
theorem accepts_iff_mem_language (r : Regex) (w : List Char) :
    (r.toNfa.accepts w = true ↔ w ∈ r.language) ∧ (r.accepts w = true ↔ w ∈ r.language) ∧
      (r.toDfa.accepts w = true ↔ w ∈ r.language) := by
  refine ⟨accepts_toNfa_iff, accepts_toNfa_iff, ?_⟩
  rw [toDfa, r.toNfa.wellFormed_toDfa.accepts_minimize, Nfa.accepts_toDfa, accepts_toNfa_iff]

-- Repetitions loop in fresh states, so they do not mix where they share their ends.
example : ((literal 'a').star.alternation (literal 'b').star).accepts ['a', 'b'] = false := by cbv

end Regex

end LanguageTheory
