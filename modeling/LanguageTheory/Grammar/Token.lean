import LanguageTheory.Symbol
import LanguageTheory.Text.Lines

/-!
# Tokens and names

The body of a production is a list of tokens: terminals, which are characters, and nonterminals,
which have names. In rule text a name of one character stands for itself, any other name stands
between angle brackets, and the empty body is written `ε`.

Spec guidance: `SPEC_FULL.md` §§6, 13.
-/

namespace LanguageTheory.Grammar

/-- Element of a body. -/
inductive Token where
  | terminal (c : Char)
  | nonterminal (name : String)
  deriving DecidableEq, Repr, Inhabited

/-- Right-hand side of a production. -/
abbrev Body := List Token

/-- Whether a character is skipped in rule text or has a meaning of its own there, so that it cannot
be a terminal. -/
def isReserved (c : Char) : Bool := isBlank c || c = '<' || c = '>' || c = '|'

/-- Whether a character can occur in the name of a nonterminal. -/
def isNameChar (c : Char) : Bool := !isReserved c && c ≠ ':' && c ≠ epsilonChar

/-- Whether a text can name a nonterminal. -/
def isValidName (name : String) : Bool := !name.toList.isEmpty && name.toList.all isNameChar

/-- A name in rule text. -/
def renderName (name : String) : String :=
  if name.toList.length = 1 then name else "<" ++ name ++ ">"

namespace Token

/-- Whether a token is a terminal. -/
def isTerminal : Token → Bool
  | terminal _ => true
  | nonterminal _ => false

/-- Name of a nonterminal. -/
def name? : Token → Option String
  | terminal _ => none
  | nonterminal name => some name

/-- A token in rule text. -/
def render : Token → String
  | terminal c => c.toString
  | nonterminal name => renderName name

/-- Characters of a terminal or of the name of a nonterminal. -/
def bareText : Token → String
  | terminal c => c.toString
  | nonterminal name => name

/-- Terminals come before nonterminals; both are ordered by code points. -/
def le : Token → Token → Bool
  | terminal c, terminal d => decide (c ≤ d)
  | terminal _, nonterminal _ => true
  | nonterminal _, terminal _ => false
  | nonterminal m, nonterminal n => decide (m ≤ n)

instance : LE Token := ⟨fun s t ↦ s.le t = true⟩

instance : DecidableLE Token := fun s t ↦ inferInstanceAs (Decidable (s.le t = true))

end Token

/-- A body in rule text. -/
def renderBody (body : Body) : String :=
  if body.isEmpty then epsilonChar.toString else String.join (body.map Token.render)

/-- Name of the nonterminal with which a body begins. -/
def leading? : Body → Option String
  | .nonterminal name :: _ => some name
  | _ => none

end LanguageTheory.Grammar
