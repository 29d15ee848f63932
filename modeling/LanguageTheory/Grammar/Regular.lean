import LanguageTheory.Error
import LanguageTheory.Grammar.Draft
import LanguageTheory.Nfa.Conversions

/-!
# Regular grammars

A grammar is regular when each of its bodies is empty, a terminal, or a terminal and a nonterminal.
Regular grammars and nondeterministic automata generate the same languages: a nonterminal is a
state, and a body is a transition or makes its nonterminal accepting.

Spec guidance: `SPEC_FULL.md` §§3, 4.6, 12.5.
-/

namespace LanguageTheory

/-- Regular grammar. -/
structure RegularGrammar where
  grammar : Grammar
  deriving DecidableEq

namespace RegularGrammar

open Grammar

/-- Whether a body has one of the forms of a regular grammar. -/
def isRegularBody : Body → Bool
  | [] => true
  | [.terminal _] => true
  | [.terminal _, .nonterminal _] => true
  | _ => false

/-- Two grammars are equivalent as descriptions when they differ in the order of their sets at
most. -/
instance : HasEquiv RegularGrammar := ⟨fun g h ↦ g.grammar ≈ h.grammar⟩

instance (g h : RegularGrammar) : Decidable (g ≈ h) :=
  inferInstanceAs (Decidable (g.grammar ≈ h.grammar))

/-- A grammar as a regular one, unless one of its bodies has another form (§7). -/
def ofGrammar (g : Grammar) : Except Error RegularGrammar :=
  match g.rules.find? fun (_, body) ↦ !isRegularBody body with
  | some (head, body) => .error (.unsupportedProduction head (renderBody body))
  | none => .ok ⟨g⟩

/-- The regular grammar that a rule text describes. -/
def parse (start : String) (terminals : List Char) (rules : String) :
    Except Error RegularGrammar := do
  ofGrammar (← Grammar.parse start terminals rules)

/-- A regular grammar in rule text. -/
def render (g : RegularGrammar) : String := g.grammar.render

/-- Label of the state that a word ends in with a body of one terminal, unless a nonterminal has it
as its name. -/
def finalLabel : String := "qf"

/-- The automaton of a regular grammar: its states are the nonterminals, and one more that is
accepting and is not left (§4.6). -/
def toNfa (g : RegularGrammar) : Nfa :=
  let g := g.grammar
  let labels := (OrderedSet.ofList g.nonterminals).insert (g.freshNonterminal finalLabel)
  let final := g.nonterminals.length
  let state (name : String) : Nat := (labels.idxOf? name).getD final
  let moves := g.rules.filterMap fun (head, body) ↦
    match body with
    | [.terminal c] => some ((state head, Symbol.char c), final)
    | [.terminal c, .nonterminal name] => some ((state head, Symbol.char c), state name)
    | _ => none
  let endings := g.rules.filterMap fun (head, body) ↦
    if body.isEmpty then some (state head) else none
  { alphabet := g.terminals
    labels := labels
    delta := moves.foldl (fun delta (key, target) ↦
      delta.upsert key fun targets ↦ (targets.getD ∅).insert target) ∅
    initial := OrderedSet.singleton (state g.start)
    accepting := (OrderedSet.ofList endings).insert final }

/-- Whether the label of a state can name a nonterminal beside the terminals of an alphabet. -/
def isUsableLabel (a : Alphabet) (label : String) : Bool :=
  isValidName label && !(label.toList.length = 1 && label.toList.any a.contains)

/-- Names of the nonterminals for the states: the labels if all of them can be used, and `q0`, `q1`
and so on otherwise. -/
def stateNames (n : Nfa) : List String :=
  let labels := n.labels.toList
  if labels.all (isUsableLabel n.alphabet) then labels
  else (List.range labels.length).map fun i ↦ "q" ++ toString i

/-- Name of state number `i`, empty if it has none. -/
def nameAt (names : List String) (i : Nat) : String := names[i]?.getD ""

/-- The bodies for a transition: with the target, and without it if the word may end there. -/
def transitionBodies (n : Nfa) (names : List String) (c : Char) (j : Nat) : List Body :=
  let going : Body := [.terminal c, .nonterminal (nameAt names j)]
  if n.isAccepting j then [going, [.terminal c]] else [going]

/-- The productions of the states with the given names: bodies for their transitions, and the empty
body for accepting states. -/
def stateProductions (n : Nfa) (names : List String) : Productions :=
  let empty : Productions := Table.ofList (names.map fun name ↦ (name, ∅))
  let going : Productions := n.transitions.foldl (fun p (i, symbol, j) ↦
    match symbol with
    | .epsilon => p
    | .char c =>
      (transitionBodies n names c j).foldl (fun p body ↦ p.add (nameAt names i) body) p) empty
  n.accepting.toList.foldl (fun p i ↦ p.add (nameAt names i) []) going

/-- Productions with one more nonterminal in front, which has the bodies of the given ones. -/
def withJoin (p : Productions) (start : String) (heads : List String) : Productions :=
  (Table.ofList [(start, OrderedSet.ofList (heads.flatMap p.bodies))]).insertMany p.entries

/-- The regular grammar of an automaton all of whose transitions read a character. -/
def ofEpsilonFree (n : Nfa) : RegularGrammar :=
  let names := stateNames n
  let p := stateProductions n names
  match n.initial.toList.map (nameAt names) with
  | [start] => ⟨{ start := start, terminals := n.alphabet, productions := p }⟩
  | heads =>
    -- A fresh start symbol takes over the bodies of all initial states.
    let start := freshName "S" p.keys
    ⟨{ start := start, terminals := n.alphabet, productions := withJoin p start heads }⟩

/-- The automaton from which the grammar is read off. -/
def epsilonFree (n : Nfa) : Nfa := if n.hasEpsilonMoves then n.removeEpsilon else n

/-- The regular grammar of an automaton (§12.5). -/
def ofNfa (n : Nfa) : RegularGrammar := ofEpsilonFree (epsilonFree n)

/-- The regular grammar of an automaton; `none` if it refers to a state without a label. -/
def ofNfa? (n : Nfa) : Option RegularGrammar :=
  if (epsilonFree n).IsLabelled then some (ofNfa n) else none

end RegularGrammar

end LanguageTheory
