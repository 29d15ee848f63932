import LanguageTheory.Alphabet
import LanguageTheory.Grammar.Token
import LanguageTheory.Search.Agenda

/-!
# Pushdown automata

A transition of a pushdown automaton reads a character or nothing, takes symbols off the top of the
stack and puts others on it. Stacks, and the symbols that a transition takes off or puts on, are
lists with the top in front. A word is accepted when a run reads all of it and ends in a final
state, or with an empty stack.

Runs may grow the stack forever, so the search for an accepting run is bounded by a height of the
stack: it follows all runs whose stacks, after the first one, are not higher.

Spec guidance: `SPEC_FULL.md` §§3, 11.3, 12.1, 13.
-/

namespace LanguageTheory

open Grammar (renderName)

/-- Symbol on the stack of a pushdown automaton. -/
inductive Pushdown.StackSymbol where
  /-- Mark of the bottom. -/
  | bottom
  | terminal (c : Char)
  | nonterminal (name : String)
  deriving DecidableEq, Repr

/-- When a word that was read is accepted. -/
inductive Pushdown.Acceptance where
  | finalState
  | emptyStack
  deriving DecidableEq, Repr

/-- Transition of a pushdown automaton. -/
structure Pushdown.Transition where
  source : Nat
  /-- The character that is read, if any. -/
  input : Option Char
  /-- Symbols that are taken off the stack, the top first. -/
  pop : List Pushdown.StackSymbol
  target : Nat
  /-- Symbols that are put on the stack, the new top first. -/
  push : List Pushdown.StackSymbol
  deriving DecidableEq, Repr

/-- Pushdown automaton. -/
structure Pushdown where
  labels : OrderedSet String
  alphabet : Alphabet
  transitions : List Pushdown.Transition
  initial : Nat
  initialStack : Pushdown.StackSymbol
  accepting : OrderedSet Nat
  acceptance : Pushdown.Acceptance
  deriving DecidableEq

namespace Pushdown

/-- Text of a symbol. -/
def StackSymbol.render : StackSymbol → String
  | bottom => "⊥"
  | terminal c => c.toString
  | nonterminal name => renderName name

/-- Text of a list of symbols. -/
def renderStack (symbols : List StackSymbol) : String :=
  if symbols.isEmpty then epsilonChar.toString
  else String.join (symbols.map StackSymbol.render)

/-- The symbols of the first stack and of the transitions. -/
def stackAlphabet (p : Pushdown) : OrderedSet StackSymbol :=
  OrderedSet.ofList (p.initialStack :: p.transitions.flatMap fun t ↦ t.pop ++ t.push)

/-- Two automata are equivalent as descriptions when they differ in the order of their sets at most;
the order of the transitions counts. -/
instance : HasEquiv Pushdown :=
  ⟨fun p q ↦ p.labels ≈ q.labels ∧ p.alphabet ≈ q.alphabet ∧ p.transitions = q.transitions ∧
    p.initial = q.initial ∧ p.initialStack = q.initialStack ∧ p.accepting ≈ q.accepting ∧
    p.acceptance = q.acceptance⟩

instance (p q : Pushdown) : Decidable (p ≈ q) :=
  inferInstanceAs (Decidable (p.labels ≈ q.labels ∧ p.alphabet ≈ q.alphabet ∧
    p.transitions = q.transitions ∧ p.initial = q.initial ∧ p.initialStack = q.initialStack ∧
    p.accepting ≈ q.accepting ∧ p.acceptance = q.acceptance))

/-- Number of states. -/
def numStates (p : Pushdown) : Nat := p.labels.size

/-- Label of state number `i`, empty if it has none. -/
def label (p : Pushdown) (i : Nat) : String := (p.labels.get? i).getD ""

/-- State, input that is left, and stack of a run. -/
structure Configuration where
  state : Nat
  input : List Char
  stack : List StackSymbol
  deriving DecidableEq, Repr

/-- A hash that tells the symbols of one automaton apart. -/
def StackSymbol.hash : StackSymbol → UInt64
  | bottom => 0
  | terminal c => mixHash 1 (Hashable.hash c.toNat)
  | nonterminal name => mixHash 2 (Hashable.hash name)

instance : Hashable StackSymbol := ⟨StackSymbol.hash⟩

instance : Hashable Configuration :=
  ⟨fun c ↦ mixHash (hash c.state) (mixHash (hash c.input.length) (hash c.stack))⟩

/-- The input after a transition has read its character, if that is what comes next. -/
def Transition.readInput? (t : Transition) (input : List Char) : Option (List Char) :=
  match t.input, input with
  | none, input => some input
  | some c, d :: rest => if c = d then some rest else none
  | some _, [] => none

/-- The stack after a transition has taken its symbols off the top, if they are there. -/
def Transition.pop? (t : Transition) (stack : List StackSymbol) : Option (List StackSymbol) :=
  if t.pop.isPrefixOf stack then some (stack.drop t.pop.length) else none

/-- The configuration after a transition, if it can be taken. -/
def Transition.fire? (t : Transition) (c : Configuration) : Option Configuration :=
  if t.source = c.state then
    (t.readInput? c.input).bind fun input ↦
      (t.pop? c.stack).map fun rest ↦ ⟨t.target, input, t.push ++ rest⟩
  else none

/-- Configuration of an automaton before a word is read. -/
def start (p : Pushdown) (w : List Char) : Configuration := ⟨p.initial, w, [p.initialStack]⟩

/-- Whether a run may end in a configuration. -/
def isAccepting (p : Pushdown) (c : Configuration) : Bool :=
  c.input.isEmpty &&
    match p.acceptance with
    | .finalState => p.accepting.contains c.state
    | .emptyStack => c.stack.isEmpty

/-- Runs whose stacks are not higher than `height`, apart from the first one. -/
inductive Run (p : Pushdown) (height : Nat) : Configuration → Configuration → Prop where
  | refl (c : Configuration) : Run p height c c
  | step {c d e : Configuration} {t : Transition} :
      t ∈ p.transitions → t.fire? c = some d → d.stack.length ≤ height → Run p height d e →
        Run p height c e

/-- Configurations that follow by one transition, with stacks not higher than `height`. -/
def successors (p : Pushdown) (height : Nat) (c : Configuration) : List Configuration :=
  (p.transitions.filterMap fun t ↦ t.fire? c).filter fun d ↦ d.stack.length ≤ height

/-- The input that is left after a transition is an end of the input before it. -/
theorem Transition.input_suffix_of_fire? {t : Transition} {c d : Configuration}
    (h : t.fire? c = some d) : d.input <:+ c.input := by
  unfold fire? at h
  split at h
  · obtain ⟨input, hi, h⟩ := Option.bind_eq_some_iff.1 h
    obtain ⟨rest, _, rfl⟩ := Option.map_eq_some_iff.1 h
    unfold readInput? at hi
    split at hi
    · cases hi
      exact List.suffix_rfl
    · next x c' y rest' _ hin =>
      split at hi
      · cases hi
        rw [hin]
        exact List.suffix_cons _ _
      · cases hi
    · cases hi
  · cases h

/-- A transition takes its symbols off every stack that has them on top, and leaves the rest. -/
theorem Transition.pop?_eq_some_iff {t : Transition} {stack rest : List StackSymbol} :
    t.pop? stack = some rest ↔ stack = t.pop ++ rest := by
  unfold pop?
  constructor
  · intro h
    split at h
    · next hp =>
      obtain ⟨zs, rfl⟩ := List.isPrefixOf_iff_prefix.1 hp
      rw [List.drop_left] at h
      rw [Option.some.inj h]
    · cases h
  · rintro rfl
    rw [if_pos (List.isPrefixOf_iff_prefix.2 (List.prefix_append _ _)), List.drop_left]

/-- The symbols on the stack after a transition come from the stack before it or are put on it. -/
theorem Transition.mem_stack_of_fire? {t : Transition} {c d : Configuration} {x : StackSymbol}
    (h : t.fire? c = some d) (hx : x ∈ d.stack) : x ∈ t.push ∨ x ∈ c.stack := by
  unfold fire? at h
  split at h
  · obtain ⟨input, _, h⟩ := Option.bind_eq_some_iff.1 h
    obtain ⟨rest, hr, rfl⟩ := Option.map_eq_some_iff.1 h
    rcases List.mem_append.1 hx with hx | hx
    · exact Or.inl hx
    · have hs := pop?_eq_some_iff.1 hr
      rw [hs]
      exact Or.inr (List.mem_append_right _ hx)
  · cases h

/-- The state after a transition is its target. -/
theorem Transition.state_of_fire? {t : Transition} {c d : Configuration}
    (h : t.fire? c = some d) : d.state = t.target := by
  unfold fire? at h
  split at h
  · obtain ⟨input, _, h⟩ := Option.bind_eq_some_iff.1 h
    obtain ⟨rest, _, rfl⟩ := Option.map_eq_some_iff.1 h
    rfl
  · cases h

/-- A word has finitely many ends. -/
theorem exists_suffixes (w : List Char) :
    ∃ ends : List (List Char), ∀ v : List Char, v <:+ w → v ∈ ends := by
  induction w with
  | nil => exact ⟨[[]], fun v hv ↦ by simpa using hv⟩
  | cons c w ih =>
    obtain ⟨ends, h⟩ := ih
    refine ⟨(c :: w) :: ends, fun v hv ↦ ?_⟩
    rcases List.suffix_cons_iff.1 hv with rfl | hv
    · simp
    · exact List.mem_cons_of_mem _ (h v hv)

/-- The configurations with bounded stacks are finitely many. -/
theorem bounded_successors (p : Pushdown) (height : Nat) (w : List Char) :
    Agenda.Bounded (p.successors height) [p.start w] := by
  obtain ⟨inputs, hinputs⟩ := exists_suffixes w
  obtain ⟨piles, hpiles⟩ :=
    Universe.exists_words p.stackAlphabet.toList (max height 1)
  let states := p.initial :: p.transitions.map Transition.target
  let inside (c : Configuration) : Prop :=
    c.state ∈ states ∧ c.input <:+ w ∧ c.stack.length ≤ max height 1 ∧
      ∀ x ∈ c.stack, x ∈ p.stackAlphabet.toList
  let all : List Configuration := states.flatMap fun state ↦ inputs.flatMap fun input ↦
    piles.map fun stack ↦ ⟨state, input, stack⟩
  have hall : ∀ c, inside c → c ∈ all := fun c hc ↦
    List.mem_flatMap.2 ⟨c.state, hc.1, List.mem_flatMap.2 ⟨c.input, hinputs _ hc.2.1,
      List.mem_map.2 ⟨c.stack, hpiles _ hc.2.2.1 hc.2.2.2, rfl⟩⟩⟩
  refine Agenda.Bounded.of_inside inside all hall ?_ ?_
  · intro c hc
    rw [List.mem_singleton] at hc
    subst hc
    refine ⟨by simp [start, states], List.suffix_rfl, Nat.le_max_right _ _, ?_⟩
    intro x hx
    have hx' : x = p.initialStack := by simpa [start] using hx
    subst hx'
    simp [stackAlphabet]
  · intro c hc d hd
    obtain ⟨hd, hheight⟩ := List.mem_filter.1 hd
    obtain ⟨t, ht, hd⟩ := List.mem_filterMap.1 hd
    refine ⟨?_, (Transition.input_suffix_of_fire? hd).trans hc.2.1, ?_, ?_⟩
    · rw [Transition.state_of_fire? hd]
      exact List.mem_cons_of_mem _ (List.mem_map.2 ⟨t, ht, rfl⟩)
    · have := of_decide_eq_true hheight
      omega
    · intro x hx
      rcases Transition.mem_stack_of_fire? hd hx with hx | hx
      · simp only [stackAlphabet, OrderedSet.mem_toList, OrderedSet.mem_ofList, List.mem_cons,
          List.mem_flatMap, List.mem_append]
        exact Or.inr ⟨t, ht, Or.inr hx⟩
      · exact hc.2.2.2 x hx

/-- Whether some run with stacks not higher than `height` accepts a word (§12.1). -/
def acceptsWithin (p : Pushdown) (height : Nat) (w : List Char) : Bool :=
  Agenda.canReach p.isAccepting (p.successors height) [p.start w] (p.bounded_successors height w)

/-- Whether some run accepts a word with stacks of at most two symbols more than the word has
characters. This is enough for recognizers that put a symbol on the stack for each
character (§11.3). -/
def accepts (p : Pushdown) (w : List Char) : Bool := p.acceptsWithin (w.length + 2) w

/-- Text of a transition. -/
def renderTransition (p : Pushdown) (t : Transition) : String :=
  "  δ(" ++ p.label t.source ++ ", " ++ (t.input.getD epsilonChar).toString ++ ", " ++
    renderStack t.pop ++ ") ∋ (" ++ p.label t.target ++ ", " ++ renderStack t.push ++ ")\n"

/-- Text of an automaton. -/
def render (p : Pushdown) : String :=
  toString p.numStates ++ " states\n" ++
  "input alphabet: " ++ p.alphabet.render ++ "\n" ++
  "stack alphabet: " ++ p.stackAlphabet.render StackSymbol.render ++ "\n" ++
  "initial state: " ++ p.label p.initial ++ "\n" ++
  "initial stack: " ++ p.initialStack.render ++ "\n" ++
  (match p.acceptance with
    | .finalState => "final states: " ++ (p.accepting.map p.label).render id ++ "\n"
    | .emptyStack => "accept by empty stack\n") ++
  "transitions:\n" ++
  String.join (p.transitions.map p.renderTransition)

end Pushdown

end LanguageTheory
