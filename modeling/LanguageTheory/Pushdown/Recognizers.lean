import LanguageTheory.Grammar.LeftRecursion
import LanguageTheory.Pushdown.Basic

/-!
# Recognizers of grammars

Two pushdown automata accept the words of a grammar. The top-down recognizer holds on its stack what
is still to be derived, and the bottom-up recognizer what has been read and reduced.

Spec guidance: `SPEC_FULL.md` §§4.6, 13.
-/

namespace LanguageTheory.Grammar

open Pushdown (StackSymbol Transition)

/-- A token as a stack symbol. -/
def Token.toStackSymbol : Token → StackSymbol
  | .terminal c => .terminal c
  | .nonterminal name => .nonterminal name

/-- Different tokens are different stack symbols. -/
theorem Token.toStackSymbol_injective {s t : Token} (h : s.toStackSymbol = t.toStackSymbol) :
    s = t := by
  cases s with
  | terminal c =>
    cases t with
    | terminal d =>
      cases h
      rfl
    | nonterminal n => cases h
  | nonterminal m =>
    cases t with
    | terminal d => cases h
    | nonterminal n =>
      cases h
      rfl

/-- The recognizer that expands the nonterminal on top of the stack by a body, matches a terminal on
top with the input, and accepts by empty stack. The expansions are those of the grammar without
left recursion (§4.6). -/
def toTopDown (g : Grammar) : Pushdown :=
  let h := g.removeLeftRecursion
  let expand := h.rules.map fun (head, body) ↦
    { source := 0, input := none, pop := [.nonterminal head]
      target := 0, push := body.map Token.toStackSymbol : Transition }
  let read := g.terminals.toList.map fun c ↦
    { source := 0, input := some c, pop := [.terminal c], target := 0, push := [] : Transition }
  { labels := OrderedSet.ofList ["q"]
    alphabet := g.terminals
    transitions := expand ++ read
    initial := 0
    initialStack := .nonterminal h.start
    accepting := ∅
    acceptance := .emptyStack }

/-- The recognizer that shifts the input onto the stack, reduces bodies on top of the stack to their
heads, and accepts when the start symbol is alone above the bottom. The reductions are those of the
proper grammar, whose empty body, if any, is accepted at the bottom (§4.6). -/
def toBottomUp (g : Grammar) : Pushdown :=
  let h := g.toProper
  let shift := g.terminals.toList.map fun c ↦
    { source := 0, input := some c, pop := [], target := 0, push := [.terminal c] : Transition }
  let reduce := (h.rules.filter fun (_, body) ↦ !body.isEmpty).map fun (head, body) ↦
    { source := 0, input := none, pop := (body.map Token.toStackSymbol).reverse
      target := 0, push := [.nonterminal head] : Transition }
  let finish : Transition :=
    { source := 0, input := none, pop := [.nonterminal h.start, .bottom], target := 1, push := [] }
  let finishEmpty : Transition :=
    { source := 0, input := none, pop := [.bottom], target := 1, push := [] }
  { labels := OrderedSet.ofList ["q", "f"]
    alphabet := g.terminals
    transitions := shift ++ reduce ++ [finish] ++
      (if (h.bodies h.start).contains [] then [finishEmpty] else [])
    initial := 0
    initialStack := .bottom
    accepting := OrderedSet.singleton 1
    acceptance := .finalState }

end LanguageTheory.Grammar
