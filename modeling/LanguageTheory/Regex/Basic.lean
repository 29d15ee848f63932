import LanguageTheory.Alphabet

/-!
# Regular expressions

A regular expression is a tree. Its text writes `+` for alternation, `.` for concatenation and `*`
for repetition, in the order of their strength; both binary operators associate to the right, and
parentheses stand only where the tree needs them.

Spec guidance: `SPEC_FULL.md` §§3, 4.3, 12.7.
-/

namespace LanguageTheory

/-- Regular expression. -/
inductive Regex where
  /-- The empty word. -/
  | epsilon
  /-- One character. -/
  | literal (c : Char)
  /-- A word of one of two expressions. -/
  | alternation (r s : Regex)
  /-- A word of the first expression and then one of the second. -/
  | concatenation (r s : Regex)
  /-- Any number of words of an expression, one after the other. -/
  | star (r : Regex)
  deriving DecidableEq, Repr, Inhabited

namespace Regex

/-- The words of an expression. -/
inductive Matches : Regex → List Char → Prop where
  | epsilon : Matches epsilon []
  | literal (c : Char) : Matches (literal c) [c]
  | left {r s : Regex} {w : List Char} : Matches r w → Matches (alternation r s) w
  | right {r s : Regex} {w : List Char} : Matches s w → Matches (alternation r s) w
  | append {r s : Regex} {u v : List Char} :
      Matches r u → Matches s v → Matches (concatenation r s) (u ++ v)
  | done {r : Regex} : Matches (star r) []
  | again {r : Regex} {u v : List Char} :
      Matches r u → Matches (star r) v → Matches (star r) (u ++ v)

/-- How strongly the outermost operator binds. -/
def strength : Regex → Nat
  | alternation _ _ => 0
  | concatenation _ _ => 1
  | star _ => 2
  | epsilon => 3
  | literal _ => 3

/-- The text of an operand, in parentheses if the operand binds more weakly than `least`. -/
def operand (least : Nat) (r : Regex) (text : List Char) : List Char :=
  if least ≤ r.strength then text else '(' :: text ++ [')']

/-- Text of an expression, as characters. -/
def text : Regex → List Char
  | epsilon => [epsilonChar]
  | literal c => [c]
  | alternation r s => operand 1 r r.text ++ '+' :: operand 0 s s.text
  | concatenation r s => operand 2 r r.text ++ '.' :: operand 1 s s.text
  | star r => operand 2 r r.text ++ ['*']

/-- Text of an expression (§12.7). -/
def render (r : Regex) : String := String.ofList r.text

/-- Characters of the literals, from left to right. -/
def literals : Regex → List Char
  | epsilon => []
  | literal c => [c]
  | alternation r s => r.literals ++ s.literals
  | concatenation r s => r.literals ++ s.literals
  | star r => r.literals

/-- The alphabet of the characters that occur, in the order of their first occurrences. -/
def alphabet (r : Regex) : Alphabet := .ofSet (.ofList r.literals)

end Regex

end LanguageTheory
