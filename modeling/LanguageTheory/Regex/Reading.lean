import LanguageTheory.Regex.Basic
import LanguageTheory.Text.Lines

/-!
# Reading expressions

An expression is read by recursive descent along the grammar

* expression: a term, or a term, `+` and an expression
* term: a factor, or a factor, `.` and a term
* factor: a primary and any number of `*`
* primary: an expression in parentheses, `ε`, or any other character

Blanks are skipped. Reading fails at the first character that cannot continue the text before it.

Spec guidance: `SPEC_FULL.md` §§4.3, 7, 11.1.
-/

namespace LanguageTheory.Regex

/-- What a character of an expression is. -/
inductive Token where
  | leftParen
  | rightParen
  | plus
  | dot
  | star
  | epsilon
  | literal (c : Char)
  deriving DecidableEq, Repr

namespace Token

/-- What a character is. -/
def ofChar (c : Char) : Token :=
  if c = '(' then leftParen
  else if c = ')' then rightParen
  else if c = '+' then plus
  else if c = '.' then dot
  else if c = '*' then star
  else if c = epsilonChar then epsilon
  else literal c

/-- The character of a token. -/
def toChar : Token → Char
  | leftParen => '('
  | rightParen => ')'
  | plus => '+'
  | dot => '.'
  | star => '*'
  | epsilon => epsilonChar
  | literal c => c

end Token

/-- A token and the position of its character in the text. -/
structure Lexeme where
  position : Nat
  token : Token
  deriving DecidableEq, Repr

/-- The tokens of a text whose first character has the given position. -/
def lexemes (position : Nat) : List Char → List Lexeme
  | [] => []
  | c :: cs =>
    if isBlank c then lexemes (position + 1) cs
    else ⟨position, .ofChar c⟩ :: lexemes (position + 1) cs

/-- Failure at the next token where an operand is missing; `stop` is the end of the text. -/
def missingOperand (stop : Nat) : List Lexeme → Error
  | [] => .unexpectedToken stop "end of input"
  | l :: _ => .unexpectedToken l.position l.token.toChar.toString

/-- Failure at the next token where an expression is complete; `stop` is the end of the text. -/
def leftover (stop : Nat) : List Lexeme → Error
  | ⟨position, .rightParen⟩ :: _ => .unbalancedParentheses position
  | ls => missingOperand stop ls

/-- An expression read from the front of some tokens, and the tokens after it. -/
structure Front (input : List Lexeme) where
  regex : Regex
  rest : List Lexeme
  rest_lt : rest.length < input.length

/-- Repeats an expression for every `*` that follows. -/
def stars (r : Regex) : (ls : List Lexeme) →
    Regex × { rest : List Lexeme // rest.length ≤ ls.length }
  | ⟨_, .star⟩ :: ls =>
    let (r, rest) := stars (star r) ls
    (r, ⟨rest.1, Nat.le_succ_of_le rest.2⟩)
  | ls => (r, ⟨ls, Nat.le_refl _⟩)

/-- The tokens after the first one, if that is `t`. -/
def skip? (t : Token) : (ls : List Lexeme) →
    Option { rest : List Lexeme // rest.length < ls.length }
  | [] => none
  | l :: ls => if l.token = t then some ⟨ls, Nat.lt_succ_self _⟩ else none

mutual

/-- Reads an expression. -/
def expression (stop : Nat) (ls : List Lexeme) : Except Error (Front ls) :=
  match term stop ls with
  | .error e => .error e
  | .ok left =>
    match skip? .plus left.rest with
    | none => .ok left
    | some ⟨rest, h⟩ =>
      match expression stop rest with
      | .error e => .error e
      | .ok right =>
        .ok ⟨alternation left.regex right.regex, right.rest,
          Nat.lt_trans right.rest_lt (Nat.lt_trans h left.rest_lt)⟩
termination_by (ls.length, 3)
decreasing_by
  · exact Prod.Lex.right _ (by omega)
  · exact Prod.Lex.left _ _ (Nat.lt_trans h left.rest_lt)

/-- Reads a term. -/
def term (stop : Nat) (ls : List Lexeme) : Except Error (Front ls) :=
  match factor stop ls with
  | .error e => .error e
  | .ok left =>
    match skip? .dot left.rest with
    | none => .ok left
    | some ⟨rest, h⟩ =>
      match term stop rest with
      | .error e => .error e
      | .ok right =>
        .ok ⟨concatenation left.regex right.regex, right.rest,
          Nat.lt_trans right.rest_lt (Nat.lt_trans h left.rest_lt)⟩
termination_by (ls.length, 2)
decreasing_by
  · exact Prod.Lex.right _ (by omega)
  · exact Prod.Lex.left _ _ (Nat.lt_trans h left.rest_lt)

/-- Reads a factor. -/
def factor (stop : Nat) (ls : List Lexeme) : Except Error (Front ls) :=
  match primary stop ls with
  | .error e => .error e
  | .ok front =>
    let (r, rest) := stars front.regex front.rest
    .ok ⟨r, rest.1, Nat.lt_of_le_of_lt rest.2 front.rest_lt⟩
termination_by (ls.length, 1)
decreasing_by exact Prod.Lex.right _ (by omega)

/-- Reads a primary. -/
def primary (stop : Nat) : (ls : List Lexeme) → Except Error (Front ls)
  | [] => .error (missingOperand stop [])
  | l :: ls =>
    match l.token with
    | .leftParen =>
      match expression stop ls with
      | .error e => .error e
      | .ok inner =>
        match skip? .rightParen inner.rest with
        | some ⟨rest, h⟩ =>
          .ok ⟨inner.regex, rest, Nat.lt_succ_of_lt (Nat.lt_trans h inner.rest_lt)⟩
        | none =>
          -- The end of the text is reported at the parenthesis that is still open.
          if inner.rest.isEmpty then .error (.unbalancedParentheses l.position)
          else .error (leftover stop inner.rest)
    | .epsilon => .ok ⟨epsilon, ls, Nat.lt_succ_self _⟩
    | .literal c => .ok ⟨literal c, ls, Nat.lt_succ_self _⟩
    | _ => .error (missingOperand stop (l :: ls))
termination_by ls => (ls.length, 0)
decreasing_by exact Prod.Lex.left _ _ (Nat.lt_succ_self _)

end

/-- Reads an expression that spans the whole text (§4.3). -/
def parse (cs : List Char) : Except Error Regex :=
  match expression cs.length (lexemes 0 cs) with
  | .error e => .error e
  | .ok front =>
    if front.rest.isEmpty then .ok front.regex else .error (leftover cs.length front.rest)

end LanguageTheory.Regex
