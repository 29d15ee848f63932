/-!
# Errors

Automata, grammars, recognizers and expressions are checked when they are built. An `Error` is the
reason why nothing was built.

Spec guidance: `SPEC_FULL.md` §§7, 11.1.
-/

namespace LanguageTheory

/-- Reason why a description does not define anything. -/
inductive Error where
  /-- A character cannot be used: it stands for the empty word, it has a meaning of its own in rule
  text, or it is also the name of a nonterminal. -/
  | malformedAlphabet (c : Char)
  /-- A character is declared twice. -/
  | duplicateSymbol (c : Char)
  /-- A state is used without being declared. -/
  | unknownState (label : String)
  /-- A character is used without being declared. -/
  | unknownSymbol (c : Char)
  /-- A nonterminal is used without being declared. -/
  | unknownNonterminal (name : String)
  /-- A name cannot name a nonterminal. -/
  | invalidName (name : String)
  /-- There is no initial state. -/
  | missingInitialState
  /-- There is more than one initial state where only one can be. -/
  | multipleInitialStates
  /-- Two transitions of a deterministic automaton lead from one state to different ones. -/
  | nondeterministicTransition (state : String) (symbol : Char)
  /-- An expression has a token where it cannot stand. -/
  | unexpectedToken (position : Nat) (found : String)
  /-- An expression has a parenthesis without its partner. -/
  | unbalancedParentheses (position : Nat)
  /-- A line is not a rule. -/
  | invalidRule (text : String)
  /-- A production of a regular grammar does not have the right form. -/
  | unsupportedProduction (head : String) (body : String)
  deriving DecidableEq, Repr

namespace Error

/-- The reason in words. -/
def message : Error → String
  | malformedAlphabet c => "malformed alphabet: '" ++ c.toString ++ "' can't be used here"
  | duplicateSymbol c => "duplicate symbol '" ++ c.toString ++ "' in alphabet"
  | unknownState label => "unknown state " ++ label
  | unknownSymbol c => "symbol '" ++ c.toString ++ "' is not in the alphabet"
  | unknownNonterminal name => "unknown nonterminal " ++ name
  | invalidName name => "invalid nonterminal name \"" ++ name ++ "\""
  | missingInitialState => "no initial state"
  | multipleInitialStates => "more than one initial state"
  | nondeterministicTransition state symbol =>
    "non-deterministic transitions from " ++ state ++ " on '" ++ symbol.toString ++ "'"
  | unexpectedToken position found =>
    "unexpected token " ++ found ++ " at position " ++ toString position
  | unbalancedParentheses position => "unbalanced parentheses at position " ++ toString position
  | invalidRule text => "invalid rule \"" ++ text ++ "\""
  | unsupportedProduction head body => "production " ++ head ++ " -> " ++ body ++ " is not regular"

end Error

end LanguageTheory
