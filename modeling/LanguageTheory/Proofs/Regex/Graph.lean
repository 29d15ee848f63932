import LanguageTheory.Proofs.Regex.Thompson
import LanguageTheory.Regex.Graph

/-!
# The words of graphs labelled by expressions

The automaton of a graph weaves the expressions of all edges between the states of the graph.
Weaving has the effect of arcs for the words of an expression whatever other arcs there are, so one
edge after the other can be taken for its words, and what is left are the paths of the graph from a
state before the initial states to a state after the final ones. States are named by labels when a
graph is drawn; every label keeps its number, so the paths are those of the drawing.
-/

namespace LanguageTheory

/-! ### Weaving several expressions -/

namespace WordGraph

variable {es : List (Nat × Regex × Nat)} {n : Nat}

/-- The arcs for the words of several edges. -/
def ofEdges (es : List (Nat × Regex × Nat)) : WordGraph :=
  ⟨fun i w j ↦ ∃ r, (i, r, j) ∈ es ∧ w ∈ r.language⟩

/-- No edges, no arcs. -/
@[simp]
theorem ofEdges_nil : ofEdges [] = ∅ := by
  ext i w j
  constructor
  · rintro ⟨r, h, _⟩
    cases h
  · exact False.elim

/-- One more edge stands for one more language. -/
theorem ofEdges_cons (i : Nat) (r : Regex) (j : Nat) (es : List (Nat × Regex × Nat)) :
    ofEdges ((i, r, j) :: es) = arcs i r.language j ∪ ofEdges es := by
  ext s w t
  constructor
  · rintro ⟨r', h, hw⟩
    rcases List.mem_cons.mp h with h | h
    · cases h
      exact Or.inl ⟨rfl, hw, rfl⟩
    · exact Or.inr ⟨r', h, hw⟩
  · rintro (⟨rfl, hw, rfl⟩ | ⟨r', h, hw⟩)
    · exact ⟨r, List.mem_cons_self, hw⟩
    · exact ⟨r', List.mem_cons_of_mem _ h, hw⟩

/-- The arcs stay below a bound when the ends of the edges do. -/
theorem within_ofEdges (h : ∀ e ∈ es, e.1 < n ∧ e.2.2 < n) : (ofEdges es).Within n := by
  rintro s w t ⟨r, hr, _⟩
  exact h _ hr

end WordGraph

namespace Weave

open WordGraph

variable {b : Weave} {es : List (Nat × Regex × Nat)}

/-- Weaves the expressions of several edges. -/
def threadAll (b : Weave) (es : List (Nat × Regex × Nat)) : Weave :=
  es.foldl (fun b e ↦ b.thread e.1 e.2.2 e.2.1) b

/-- Between the states of an automaton, weaving several expressions has the effect of arcs for their
words, whatever other arcs there are. -/
theorem walk_threadAll (hb : b.Closed)
    (hes : ∀ e ∈ es, e.1 < b.numStates ∧ e.2.2 < b.numStates) {X : WordGraph}
    (hX : X.Within b.numStates) {s t : Nat} (hs : s < b.numStates) (ht : t < b.numStates)
    {w : List Char} :
    ((b.threadAll es).graph ∪ X).Walk s w t ↔ (b.graph ∪ ofEdges es ∪ X).Walk s w t := by
  induction es generalizing b with
  | nil => rw [ofEdges_nil, union_empty, threadAll, List.foldl_nil]
  | cons e es ih =>
    obtain ⟨i, r, j⟩ := e
    rw [List.forall_mem_cons] at hes
    obtain ⟨⟨hi, hj⟩, hes⟩ := hes
    have hle := numStates_le_thread b i j r
    have hrest : (ofEdges es ∪ X).Within b.numStates := (within_ofEdges hes).union hX
    have hall : ((b.threadAll ((i, r, j) :: es)).graph ∪ X).Walk s w t ↔
        ((b.thread i j r).graph ∪ ofEdges es ∪ X).Walk s w t :=
      ih (hb.thread hi hj) (fun e he ↦ ⟨(hes e he).1.trans_le hle, (hes e he).2.trans_le hle⟩)
        (hX.mono hle) (hs.trans_le hle) (ht.trans_le hle)
    rw [hall, union_assoc, walk_thread hb hi hj hrest hs ht, ofEdges_cons, ← union_assoc,
      ← union_assoc]

/-- Weaving several expressions keeps all states. -/
theorem numStates_le_threadAll (b : Weave) (es : List (Nat × Regex × Nat)) :
    b.numStates ≤ (b.threadAll es).numStates := by
  induction es generalizing b with
  | nil => exact Nat.le_refl _
  | cons e es ih => exact (numStates_le_thread b e.1 e.2.2 e.2.1).trans (ih _)

/-- Weaving several expressions between states leaves all transitions between states. -/
theorem Closed.threadAll (hb : b.Closed)
    (hes : ∀ e ∈ es, e.1 < b.numStates ∧ e.2.2 < b.numStates) : (b.threadAll es).Closed := by
  induction es generalizing b with
  | nil => exact hb
  | cons e es ih =>
    obtain ⟨⟨hi, hj⟩, hes⟩ := List.forall_mem_cons.mp hes
    have hle := numStates_le_thread b e.1 e.2.2 e.2.1
    exact ih (hb.thread hi hj) fun e he ↦ ⟨(hes e he).1.trans_le hle, (hes e he).2.trans_le hle⟩

/-- Weaving several expressions leaves no set of targets empty. -/
theorem filled_threadAll (hb : b.delta.Filled) : (b.threadAll es).delta.Filled := by
  induction es generalizing b with
  | nil => exact hb
  | cons e es ih => exact ih (filled_thread hb)

/-- Woven expressions read their literals. -/
theorem reads_threadAll {c : Char} :
    (b.threadAll es).Reads c ↔ b.Reads c ∨ ∃ e ∈ es, c ∈ e.2.1.literals :=
  foldl_iff (fun b ↦ b.Reads c) (fun e ↦ c ∈ e.2.1.literals) (fun _ _ ↦ reads_thread) b es

end Weave

namespace RegexGraph

open WordGraph

variable {g : RegexGraph} {i j : Nat} {r : Regex} {w : List Char}

/-! ### Paths of a graph -/

/-- Paths are walks along the edges. -/
theorem path_iff_walk : g.Path i w j ↔ (ofEdges g.edges).Walk i w j := by
  constructor
  · intro h
    induction h with
    | refl i => exact .refl i
    | step h hu _ ih =>
      have harc : (ofEdges g.edges).Arc _ _ _ := ⟨_, h, Regex.matches_iff.mp hu⟩
      exact .step harc ih
  · intro h
    induction h with
    | refl i => exact .refl i
    | step h _ ih =>
      obtain ⟨r, hr, hu⟩ := h
      exact .step hr (Regex.matches_iff.mpr hu) ih

/-- A path with a word leads from an initial to a final state. -/
def Spells (g : RegexGraph) (w : List Char) : Prop :=
  ∃ i ∈ g.initial, ∃ j ∈ g.accepting, g.Path i w j

/-- All states that a graph refers to have labels. -/
structure WellFormed (g : RegexGraph) : Prop where
  edges_lt : ∀ i r j, (i, r, j) ∈ g.edges → i < g.numStates ∧ j < g.numStates
  initial_lt : ∀ i ∈ g.initial, i < g.numStates
  accepting_lt : ∀ i ∈ g.accepting, i < g.numStates

/-! ### A state before and a state after all others -/

/-- The graph with a state before its initial states and a state after its final ones. -/
def framed (g : RegexGraph) : RegexGraph where
  labels := (g.labels.insert (freshName startLabel g.labels.toList)).insert
    (freshName endLabel g.labels.toList)
  edges := g.initial.toList.map (fun i ↦ (g.numStates, .epsilon, i)) ++
    g.accepting.toList.map (fun i ↦ (i, .epsilon, g.numStates + 1)) ++ g.edges
  initial := OrderedSet.singleton g.numStates
  accepting := OrderedSet.singleton (g.numStates + 1)

/-- The labels of the new states are fresh and differ, so there are two states more. -/
theorem numStates_framed (g : RegexGraph) : g.framed.numStates = g.numStates + 2 := by
  have hstart : freshName startLabel g.labels.toList ∉ g.labels := freshName_notMem _ _
  have hstop : freshName endLabel g.labels.toList ∉
      g.labels.insert (freshName startLabel g.labels.toList) := by
    have hfirst : 'E' ≠ 'S' := by decide
    rw [OrderedSet.mem_insert, not_or]
    exact ⟨freshName_notMem _ _, freshName_ne hfirst rfl rfl _ _⟩
  rw [numStates, framed, OrderedSet.size, OrderedSet.toList_insert_of_notMem hstop,
    OrderedSet.toList_insert_of_notMem hstart, List.length_append, List.length_append]
  rfl

/-- The edges lead into the initial states, out of the final ones, or are those of the graph. -/
theorem mem_edges_framed : (i, r, j) ∈ g.framed.edges ↔
    (i = g.numStates ∧ r = .epsilon ∧ j ∈ g.initial) ∨
      (i ∈ g.accepting ∧ r = .epsilon ∧ j = g.numStates + 1) ∨ (i, r, j) ∈ g.edges := by
  rw [framed, List.mem_append, List.mem_append, or_assoc]
  simp only [List.mem_map, Prod.mk.injEq, OrderedSet.mem_toList]
  refine or_congr ?_ (or_congr ?_ Iff.rfl)
  · constructor
    · rintro ⟨j, hj, rfl, rfl, rfl⟩
      exact ⟨rfl, rfl, hj⟩
    · rintro ⟨rfl, rfl, hj⟩
      exact ⟨j, hj, rfl, rfl, rfl⟩
  · constructor
    · rintro ⟨i, hi, rfl, rfl, rfl⟩
      exact ⟨hi, rfl, rfl⟩
    · rintro ⟨hi, rfl, rfl⟩
      exact ⟨i, hi, rfl, rfl, rfl⟩

/-- A path to a final state goes on to the state after all others. -/
theorem Path.framed (h : g.Path i w j) (hj : j ∈ g.accepting) :
    g.framed.Path i w (g.numStates + 1) := by
  induction h with
  | refl i =>
    exact .step (mem_edges_framed.mpr (.inr (.inl ⟨hj, rfl, rfl⟩))) .epsilon (.refl _)
  | step h hu _ ih => exact .step (mem_edges_framed.mpr (.inr (.inr h))) hu (ih hj)

section Framed

variable (hg : g.WellFormed)

include hg

/-- The ends of the edges are states. -/
theorem WellFormed.edges_framed_lt : ∀ e ∈ g.framed.edges,
    e.1 < g.numStates + 2 ∧ e.2.2 < g.numStates + 2 := by
  rintro ⟨i, r, j⟩ h
  dsimp only
  rcases mem_edges_framed.mp h with ⟨rfl, _, hj⟩ | ⟨hi, _, rfl⟩ | h
  · have := hg.initial_lt j hj
    omega
  · have := hg.accepting_lt i hi
    omega
  · have := hg.edges_lt i r j h
    omega

/-- No edge leaves the state after all others. -/
theorem WellFormed.eq_nil_of_path_framed (h : g.framed.Path (g.numStates + 1) w j) : w = [] := by
  cases h with
  | refl => rfl
  | step h _ _ =>
    rcases mem_edges_framed.mp h with ⟨hi, _⟩ | ⟨hi, _⟩ | h
    · omega
    · have := hg.accepting_lt _ hi
      omega
    · have := (hg.edges_lt _ _ _ h).1
      omega

/-- A path from a state of the graph to the state after all others passes a final state at its
end. -/
theorem WellFormed.exists_path_of_framed (hi : i < g.numStates)
    (h : g.framed.Path i w (g.numStates + 1)) : ∃ j ∈ g.accepting, g.Path i w j := by
  generalize hstop : g.numStates + 1 = k at h
  induction h with
  | refl i => omega
  | @step i m k r u v h hu hrest ih =>
    rcases mem_edges_framed.mp h with ⟨rfl, _⟩ | ⟨haccepting, rfl, rfl⟩ | h
    · omega
    · cases hu
      rw [hg.eq_nil_of_path_framed hrest]
      exact ⟨i, haccepting, .refl i⟩
    · obtain ⟨j, hj, hpath⟩ := ih (hg.edges_lt i r m h).2 hstop
      exact ⟨j, hj, .step h hu hpath⟩

/-- The words between the two new states are those of the graph. -/
theorem WellFormed.path_framed_iff :
    g.framed.Path g.numStates w (g.numStates + 1) ↔ g.Spells w := by
  constructor
  · intro h
    generalize hstart : g.numStates = s at h
    generalize hstop : s + 1 = t at h
    cases h with
    | refl => omega
    | @step _ i _ r u v h hu hrest =>
      rcases mem_edges_framed.mp h with ⟨_, rfl, hi⟩ | ⟨hs, _⟩ | h
      · cases hu
        rw [← hstop, ← hstart] at hrest
        exact ⟨i, hi, hg.exists_path_of_framed (hg.initial_lt i hi) hrest⟩
      · have := hg.accepting_lt s hs
        omega
      · have := (hg.edges_lt s r i h).1
        omega
  · rintro ⟨i, hi, j, hj, h⟩
    exact .step (mem_edges_framed.mpr (.inl ⟨rfl, rfl, hi⟩)) .epsilon (h.framed hj)

end Framed

/-! ### The automaton -/

/-- The transitions of the automaton of a graph. -/
def woven (g : RegexGraph) : Weave := Weave.threadAll ⟨g.framed.labels, ∅⟩ g.framed.edges

/-- The automaton of a graph, whether it has initial states or not. -/
def automaton (g : RegexGraph) : Nfa where
  alphabet := .ofSet (.ofList (g.edges.flatMap fun (_, r, _) ↦ r.literals))
  labels := g.woven.labels
  delta := g.woven.delta
  initial := OrderedSet.singleton g.numStates
  accepting := OrderedSet.singleton (g.numStates + 1)

/-- There is an automaton for a graph with an initial state. -/
theorem toNfa_eq_ok (h : ∃ i, i ∈ g.initial) : g.toNfa = .ok g.automaton := by
  have hne : ¬ g.initial.isEmpty = true := by
    rw [OrderedSet.isEmpty_iff, not_forall_not]
    exact h
  unfold toNfa
  rw [if_neg hne, automaton, woven, Weave.threadAll, framed, List.foldl_append, List.foldl_append,
    List.foldl_map, List.foldl_map]
  rfl

/-- A graph without an initial state has no automaton. -/
theorem toNfa_eq_error (h : ∀ i, i ∉ g.initial) : g.toNfa = .error .missingInitialState :=
  if_pos (OrderedSet.isEmpty_iff.mpr h)

/-- Every transition reads a character of a literal. -/
theorem readsDeclared_automaton (g : RegexGraph) : g.automaton.ReadsDeclared := by
  intro i c j h
  have hreads : g.woven.Reads c := Weave.reads_of_delta rfl h
  rcases Weave.reads_threadAll.mp hreads with hempty | ⟨⟨s, r, t⟩, he, hc⟩
  · exact absurd hempty (Weave.not_reads_mk_empty _ c)
  · have hr : (s, r, t) ∈ g.edges := by
      rcases mem_edges_framed.mp he with ⟨_, rfl, _⟩ | ⟨_, rfl, _⟩ | h
      · cases hc
      · cases hc
      · exact h
    exact OrderedSet.mem_ofList.mpr (List.mem_flatMap.mpr ⟨(s, r, t), hr, hc⟩)

/-- There is no other automaton for a graph. -/
theorem eq_automaton_of_toNfa {n : Nfa} (h : g.toNfa = .ok n) : n = g.automaton := by
  by_cases hinitial : ∃ i, i ∈ g.initial
  · rw [toNfa_eq_ok hinitial] at h
    cases h
    rfl
  · rw [toNfa_eq_error (not_exists.mp hinitial)] at h
    cases h

/-- Every automaton of a graph reads declared characters. -/
theorem readsDeclared_of_toNfa {n : Nfa} (h : g.toNfa = .ok n) : n.ReadsDeclared := by
  rw [eq_automaton_of_toNfa h]
  exact readsDeclared_automaton g

/-- Every state that the automaton of a graph refers to has a label. -/
theorem WellFormed.isLabelled_automaton (hg : g.WellFormed) : g.automaton.IsLabelled := by
  let b : Weave := ⟨g.framed.labels, ∅⟩
  have hsize : b.numStates = g.numStates + 2 := numStates_framed g
  have hle : b.numStates ≤ g.automaton.numStates := b.numStates_le_threadAll g.framed.edges
  have hclosed : g.woven.Closed :=
    (Weave.closed_mk_empty _).threadAll (hsize.symm ▸ hg.edges_framed_lt)
  refine Nfa.isLabelled_of_transitions (fun i hi ↦ ?_) (fun i hi ↦ ?_)
    (Weave.filled_threadAll Table.filled_empty) fun i s j hmove ↦ ?_
  · rw [OrderedSet.mem_singleton.mp hi]
    omega
  · rw [OrderedSet.mem_singleton.mp hi]
    omega
  · exact hclosed.lt_of_mem_transitions rfl hmove

/-- Every state that an automaton of a graph refers to has a label. -/
theorem WellFormed.isLabelled_of_toNfa (hg : g.WellFormed) {n : Nfa} (h : g.toNfa = .ok n) :
    n.IsLabelled := by
  rw [eq_automaton_of_toNfa h]
  exact hg.isLabelled_automaton

/-- The paths of the automaton between states of the graph and the two new ones are paths of the
graph. -/
theorem WellFormed.path_automaton_iff (hg : g.WellFormed) (hi : i < g.numStates + 2)
    (hj : j < g.numStates + 2) : g.automaton.Path i w j ↔ g.framed.Path i w j := by
  let b : Weave := ⟨g.framed.labels, ∅⟩
  have hsize : b.numStates = g.numStates + 2 := numStates_framed g
  have hempty : (∅ : WordGraph).Within b.numStates := fun _ _ _ h ↦ h.elim
  rw [← hsize] at hi hj
  have hwalk : (g.woven.graph ∪ ∅).Walk i w j ↔ _ := Weave.walk_threadAll
    (Weave.closed_mk_empty _) (hsize.symm ▸ hg.edges_framed_lt) hempty hi hj
  rw [union_empty, union_empty, Weave.graph_mk_empty, empty_union] at hwalk
  rw [path_iff_walk, ← hwalk, Nfa.path_iff_walk, Weave.graph_eq_of_delta (b := g.woven) rfl]

/-- The automaton spells the words of the graph. -/
theorem WellFormed.spells_automaton_iff (hg : g.WellFormed) :
    g.automaton.Spells w ↔ g.Spells w := by
  have hpath : g.automaton.Path g.numStates w (g.numStates + 1) ↔ _ :=
    hg.path_automaton_iff (by omega) (by omega)
  rw [← hg.path_framed_iff, ← hpath]
  constructor
  · rintro ⟨i, hi, j, hj, h⟩
    rwa [OrderedSet.mem_singleton.mp hi, OrderedSet.mem_singleton.mp hj] at h
  · intro h
    exact ⟨_, OrderedSet.mem_singleton.mpr rfl, _, OrderedSet.mem_singleton.mpr rfl, h⟩

/-! ### Drawing a graph -/

/-- What is added to a graph, by labels of states. -/
inductive Edit where
  /-- An edge from a state to a state. -/
  | edge (source : String) (r : Regex) (target : String)
  /-- An initial state. -/
  | initial (label : String)
  /-- A final state. -/
  | accepting (label : String)
  deriving DecidableEq

/-- The states that are declared by being named. -/
def Edit.labels : Edit → List String
  | edge s _ t => [s, t]
  | initial s => [s]
  | accepting s => [s]

/-- The graph after one addition. -/
def edit (g : RegexGraph) : Edit → RegexGraph
  | .edge s r t => g.addEdge s r t
  | .initial s => g.markInitial s
  | .accepting s => g.markAccepting s

/-- The graph after several additions. -/
def ofEdits (edits : List Edit) : RegexGraph := edits.foldl edit {}

/-- The graph after one more addition. -/
theorem ofEdits_append_singleton (edits : List Edit) (e : Edit) :
    ofEdits (edits ++ [e]) = (ofEdits edits).edit e := List.foldl_append

variable {edits : List Edit} {e : Edit} {labels : OrderedSet String} {label s t : String}

/-- An addition declares the labels that it names. -/
theorem labels_edit (g : RegexGraph) (e : Edit) :
    (g.edit e).labels = g.labels.insertMany e.labels := by
  cases e <;> rfl

/-- The labels of a graph are those that its additions name. -/
theorem mem_labels_ofEdits : label ∈ (ofEdits edits).labels ↔ ∃ e ∈ edits, label ∈ e.labels := by
  have hempty : label ∉ ({} : RegexGraph).labels := OrderedSet.notMem_empty label
  rw [ofEdits, foldl_iff (fun g ↦ label ∈ labels g) fun e ↦ label ∈ e.labels, or_iff_right hempty]
  intro g e
  rw [labels_edit, OrderedSet.mem_insertMany]

/-- A label that an addition names has a number. -/
theorem exists_idxOf?_ofEdits (he : e ∈ edits) (hlabel : label ∈ e.labels) :
    ∃ i, (ofEdits edits).labels.idxOf? label = some i :=
  OrderedSet.exists_idxOf?_eq_some (mem_labels_ofEdits.mpr ⟨e, he, hlabel⟩)

/-- A label that is declared has a number, which it keeps when others are declared. -/
theorem idxOf?_eq_some_intern (h : (g.labels.insert label).toList <+: labels.toList) :
    labels.idxOf? label = some (g.intern label).1 := by
  obtain ⟨i, hi⟩ := OrderedSet.exists_idxOf?_eq_some
    (OrderedSet.mem_insert.mpr (.inr rfl) : label ∈ g.labels.insert label)
  have hnumber : (g.intern label).1 = i := by rw [intern, hi, Option.getD_some]
  rw [hnumber]
  exact OrderedSet.idxOf?_eq_some_of_prefix h hi

/-- Numbered states are what additions say of labels, when labels have the given numbers. -/
structure Shows (g : RegexGraph) (edits : List Edit) (labels : OrderedSet String) : Prop where
  edges : ∀ i r j, (i, r, j) ∈ g.edges ↔ ∃ s t, .edge s r t ∈ edits ∧
    labels.idxOf? s = some i ∧ labels.idxOf? t = some j
  initial : ∀ i, i ∈ g.initial ↔ ∃ s, .initial s ∈ edits ∧ labels.idxOf? s = some i
  accepting : ∀ i, i ∈ g.accepting ↔ ∃ s, .accepting s ∈ edits ∧ labels.idxOf? s = some i

/-- One more marked state stands for one more label that is marked. -/
theorem mem_insert_iff_marked {mark : String → Edit} (hmark : mark.Injective)
    {states : OrderedSet Nat} {k : Nat}
    (hstates : ∀ i, i ∈ states ↔ ∃ s, mark s ∈ edits ∧ labels.idxOf? s = some i)
    (hk : labels.idxOf? label = some k) (i : Nat) :
    i ∈ states.insert k ↔ ∃ s, mark s ∈ edits ++ [mark label] ∧ labels.idxOf? s = some i := by
  have hnew : i = k ↔ ∃ s, mark s = mark label ∧ labels.idxOf? s = some i := by
    simp [hmark.eq_iff, hk, eq_comm]
  rw [OrderedSet.mem_insert, hstates, hnew, ← exists_or]
  simp only [List.mem_append, List.mem_singleton, or_and_right]

/-- One more addition is shown by one more edge, initial or final state. -/
theorem Shows.edit (h : g.Shows edits labels)
    (hlabels : (g.edit e).labels.toList <+: labels.toList) :
    (g.edit e).Shows (edits ++ [e]) labels := by
  rw [labels_edit] at hlabels
  cases e with
  | edge s r t =>
    have hs : labels.idxOf? s = some (g.intern s).1 :=
      idxOf?_eq_some_intern ((OrderedSet.prefix_toList_insertMany _ [t]).trans hlabels)
    have ht : labels.idxOf? t = some ((g.intern s).2.intern t).1 := idxOf?_eq_some_intern hlabels
    refine ⟨fun i r' j ↦ ?_, fun i ↦ (h.initial i).trans (by simp),
      fun i ↦ (h.accepting i).trans (by simp)⟩
    have hnew : (i, r', j) = ((g.intern s).1, r, ((g.intern s).2.intern t).1) ↔
        ∃ s' t', Edit.edge s' r' t' = .edge s r t ∧
          labels.idxOf? s' = some i ∧ labels.idxOf? t' = some j := by
      constructor
      · intro h
        cases h
        exact ⟨s, t, rfl, hs, ht⟩
      · rintro ⟨s, t, h, hi, hj⟩
        cases h
        cases hs.symm.trans hi
        cases ht.symm.trans hj
        rfl
    have hedges : (g.edit (.edge s r t)).edges =
      g.edges ++ [((g.intern s).1, r, ((g.intern s).2.intern t).1)] := rfl
    rw [hedges, List.mem_append, h.edges, List.mem_singleton, hnew]
    simp only [List.mem_append, List.mem_singleton, or_and_right, exists_or]
  | initial s =>
    refine ⟨fun i r j ↦ (h.edges i r j).trans (by simp), ?_,
      fun i ↦ (h.accepting i).trans (by simp)⟩
    exact mem_insert_iff_marked (fun _ _ ↦ Edit.initial.inj) h.initial
      (idxOf?_eq_some_intern hlabels)
  | accepting s =>
    refine ⟨fun i r j ↦ (h.edges i r j).trans (by simp),
      fun i ↦ (h.initial i).trans (by simp), ?_⟩
    exact mem_insert_iff_marked (fun _ _ ↦ Edit.accepting.inj) h.accepting
      (idxOf?_eq_some_intern hlabels)

/-- The graph shows its additions, under its own numbers and those of any labels that go on. -/
theorem shows_ofEdits (edits : List Edit) (h : (ofEdits edits).labels.toList <+: labels.toList) :
    (ofEdits edits).Shows edits labels := by
  induction edits using List.reverseRecOn with
  | nil =>
    refine ⟨fun i r j ↦ ?_, fun i ↦ ?_, fun i ↦ ?_⟩
    · simp [ofEdits]
    · simp [ofEdits]
    · simp [ofEdits]
  | append_singleton edits e ih =>
    rw [ofEdits_append_singleton] at h ⊢
    have hbefore : (ofEdits edits).labels.toList <+: ((ofEdits edits).edit e).labels.toList := by
      rw [labels_edit]
      exact OrderedSet.prefix_toList_insertMany _ _
    exact (ih (hbefore.trans h)).edit h

/-- Every state of a graph that is drawn has a label. -/
theorem wellFormed_ofEdits (edits : List Edit) : (ofEdits edits).WellFormed := by
  have hshows := shows_ofEdits edits List.prefix_rfl
  refine ⟨fun i r j h ↦ ?_, fun i h ↦ ?_, fun i h ↦ ?_⟩
  · obtain ⟨s, t, _, hs, ht⟩ := (hshows.edges i r j).mp h
    exact ⟨OrderedSet.lt_size_of_idxOf?_eq_some hs, OrderedSet.lt_size_of_idxOf?_eq_some ht⟩
  · obtain ⟨s, _, hs⟩ := (hshows.initial i).mp h
    exact OrderedSet.lt_size_of_idxOf?_eq_some hs
  · obtain ⟨s, _, hs⟩ := (hshows.accepting i).mp h
    exact OrderedSet.lt_size_of_idxOf?_eq_some hs

/-- Words that some path leads over from one label to another along the edges that were added. -/
inductive Leads (edits : List Edit) : String → List Char → String → Prop where
  | refl (s : String) : Leads edits s [] s
  | step {s t l : String} {r : Regex} {u v : List Char} :
      .edge s r t ∈ edits → r.Matches u → Leads edits t v l → Leads edits s (u ++ v) l

/-- The words that lead from an initial to a final state of a drawing. -/
def Draws (edits : List Edit) (w : List Char) : Prop :=
  ∃ s t, .initial s ∈ edits ∧ .accepting t ∈ edits ∧ Leads edits s w t

/-- Paths between labels are paths between their numbers. -/
theorem Leads.path (h : Leads edits s w t) (hs : (ofEdits edits).labels.idxOf? s = some i)
    (ht : (ofEdits edits).labels.idxOf? t = some j) : (ofEdits edits).Path i w j := by
  induction h generalizing i with
  | refl t =>
    cases hs.symm.trans ht
    exact .refl j
  | @step s m t r u v he hu _ ih =>
    obtain ⟨k, hk⟩ := exists_idxOf?_ofEdits he (List.mem_cons_of_mem _ List.mem_cons_self)
    have hedge := ((shows_ofEdits edits List.prefix_rfl).edges i r k).mpr ⟨s, m, he, hs, hk⟩
    exact .step hedge hu (ih hk ht)

/-- Paths between numbers are paths between their labels. -/
theorem Path.leads (h : (ofEdits edits).Path i w j)
    (hs : (ofEdits edits).labels.idxOf? s = some i)
    (ht : (ofEdits edits).labels.idxOf? t = some j) : Leads edits s w t := by
  induction h generalizing s with
  | refl i =>
    rw [OrderedSet.eq_of_idxOf?_eq_some hs ht]
    exact .refl t
  | @step i k j r u v he hu _ ih =>
    obtain ⟨s', m, hedge, hs', hm⟩ := ((shows_ofEdits edits List.prefix_rfl).edges i r k).mp he
    rw [OrderedSet.eq_of_idxOf?_eq_some hs hs']
    exact .step hedge hu (ih hm ht)

/-- The words of a graph are those of the drawing. -/
theorem spells_ofEdits_iff : (ofEdits edits).Spells w ↔ Draws edits w := by
  have hshows := shows_ofEdits edits List.prefix_rfl
  constructor
  · rintro ⟨i, hi, j, hj, hpath⟩
    obtain ⟨s, hinitial, hs⟩ := (hshows.initial i).mp hi
    obtain ⟨t, haccepting, ht⟩ := (hshows.accepting j).mp hj
    exact ⟨s, t, hinitial, haccepting, hpath.leads hs ht⟩
  · rintro ⟨s, t, hinitial, haccepting, h⟩
    obtain ⟨i, hs⟩ := exists_idxOf?_ofEdits hinitial List.mem_cons_self
    obtain ⟨j, ht⟩ := exists_idxOf?_ofEdits haccepting List.mem_cons_self
    exact ⟨i, (hshows.initial i).mpr ⟨s, hinitial, hs⟩, j,
      (hshows.accepting j).mpr ⟨t, haccepting, ht⟩, h.path hs ht⟩

/-- A state that is marked initial makes for an initial state. -/
theorem exists_mem_initial_iff : (∃ i, i ∈ (ofEdits edits).initial) ↔ ∃ s, .initial s ∈ edits := by
  have hshows := shows_ofEdits edits List.prefix_rfl
  constructor
  · rintro ⟨i, hi⟩
    obtain ⟨s, hinitial, _⟩ := (hshows.initial i).mp hi
    exact ⟨s, hinitial⟩
  · rintro ⟨s, hinitial⟩
    obtain ⟨i, hs⟩ := exists_idxOf?_ofEdits hinitial List.mem_cons_self
    exact ⟨i, (hshows.initial i).mpr ⟨s, hinitial, hs⟩⟩

/-- A drawing with an initial state has an automaton, which accepts the words that lead from an
initial to a final state. -/
theorem accepts_toNfa_ofEdits (hinitial : ∃ s, .initial s ∈ edits) :
    ∃ n, (ofEdits edits).toNfa = .ok n ∧ ∀ w,
      (n.accepts w = true ↔ (ofEdits edits).Spells w) ∧
        (n.accepts w = true ↔ Draws edits w) := by
  refine ⟨_, toNfa_eq_ok (exists_mem_initial_iff.mpr hinitial), fun w ↦ ?_⟩
  rw [Nfa.accepts_iff_spells (readsDeclared_automaton _),
    (wellFormed_ofEdits edits).spells_automaton_iff]
  exact ⟨Iff.rfl, spells_ofEdits_iff⟩

/-- A drawing whose labels are those that the automaton has for its own states, with two edges from
one state to another and a loop at each of them. -/
def borrowedLabels : List Edit :=
  [.edge "START" (.star (.concatenation (.literal 'a') (.literal 'a'))) "START",
    .edge "START" (.literal 'b') "END", .edge "START" .epsilon "END", .initial "START",
    .edge "END" (.alternation (.literal 'c') .epsilon) "END", .edge "END" (.literal 'd') "2",
    .accepting "END", .initial "2"]

/-- The loops are passed any number of times, and an even number of `a`s stands in front. -/
theorem accepts_toNfa_ofEdits_borrowedLabels :
    (∃ s, .initial s ∈ borrowedLabels) ∧
      ∃ n, (ofEdits borrowedLabels).toNfa = .ok n ∧
        (∀ w, (n.accepts w = true ↔ (ofEdits borrowedLabels).Spells w) ∧
          (n.accepts w = true ↔ Draws borrowedLabels w)) ∧
        n.accepts ['a', 'a', 'b', 'c'] = true := by
  have hinitial : ∃ s, .initial s ∈ borrowedLabels := ⟨"START", by decide⟩
  obtain ⟨n, hn, hwords⟩ := accepts_toNfa_ofEdits hinitial
  refine ⟨hinitial, n, hn, hwords, (hwords _).2.mpr ⟨"START", "END", by decide, by decide, ?_⟩⟩
  have hloop : Leads borrowedLabels "END" ['c'] "END" :=
    .step (r := .alternation (.literal 'c') .epsilon) (by decide) (.left (.literal 'c'))
      (.refl "END")
  have hedge : Leads borrowedLabels "START" ['b', 'c'] "END" :=
    .step (by decide) (.literal 'b') hloop
  exact .step (by decide) (.again (.append (.literal 'a') (.literal 'a')) .done) hedge

end RegexGraph

end LanguageTheory
