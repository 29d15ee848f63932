import LanguageTheory.Regex.Reading

/-!
# The grammar of expressions

Which sequences of tokens are expressions, and which tree each of them stands for: the rules by
which a reader of the text may check the parser, written without reference to it.

* expression: a term, or a term, `+` and an expression
* term: a factor, or a factor, `.` and a term
* factor: a primary and any number of `*`
* primary: an expression in parentheses, `ε`, or any other character

Spec guidance: `SPEC_FULL.md` §4.3.
-/

namespace LanguageTheory.Regex

mutual

/-- Tokens that are an expression, with its tree. -/
inductive IsExpression : List Token → Regex → Prop where
  | term {ts : List Token} {r : Regex} : IsTerm ts r → IsExpression ts r
  | plus {ts us : List Token} {r s : Regex} :
      IsTerm ts r → IsExpression us s → IsExpression (ts ++ .plus :: us) (.alternation r s)

/-- Tokens that are a term, with its tree. -/
inductive IsTerm : List Token → Regex → Prop where
  | factor {ts : List Token} {r : Regex} : IsFactor ts r → IsTerm ts r
  | dot {ts us : List Token} {r s : Regex} :
      IsFactor ts r → IsTerm us s → IsTerm (ts ++ .dot :: us) (.concatenation r s)

/-- Tokens that are a factor, with its tree. -/
inductive IsFactor : List Token → Regex → Prop where
  | primary {ts : List Token} {r : Regex} : IsPrimary ts r → IsFactor ts r
  | star {ts : List Token} {r : Regex} : IsFactor ts r → IsFactor (ts ++ [.star]) (.star r)

/-- Tokens that are a primary, with its tree. -/
inductive IsPrimary : List Token → Regex → Prop where
  | parens {ts : List Token} {r : Regex} :
      IsExpression ts r → IsPrimary (.leftParen :: ts ++ [.rightParen]) r
  | epsilon : IsPrimary [.epsilon] .epsilon
  | literal (c : Char) : IsPrimary [.literal c] (.literal c)

end

/-- The tokens of a text, without its blanks. -/
def tokens (cs : List Char) : List Token :=
  (cs.filter fun c ↦ !isBlank c).map Token.ofChar

/-- The tokens of a text, without their positions. -/
theorem map_token_lexemes (position : Nat) (cs : List Char) :
    (lexemes position cs).map Lexeme.token = tokens cs := by
  induction cs generalizing position with
  | nil => rfl
  | cons c cs ih =>
    unfold lexemes tokens
    by_cases h : isBlank c = true
    · rw [if_pos h, List.filter_cons_of_neg (by simp [h]), ih]
      rfl
    · rw [if_neg h, List.filter_cons_of_pos (by simpa using h), List.map_cons, List.map_cons, ih]
      rfl

end LanguageTheory.Regex
