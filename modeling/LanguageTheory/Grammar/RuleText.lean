import LanguageTheory.Error
import LanguageTheory.Grammar.Basic
import LanguageTheory.Text.Lines

/-!
# Rule text

A rule is a line `head: body | … | body`. Blanks are skipped, and so is `ε`, so that `ε` alone is
the empty body. A character is a nonterminal if one has it as its name, and a terminal otherwise;
`<name>` is always a nonterminal.

Spec guidance: `SPEC_FULL.md` §§6, 13.
-/

namespace LanguageTheory.Grammar

/-- A line cut at its first colon: the name of its head, and the text of its bodies. -/
structure RuleLine where
  text : String
  head : String
  bodies : List Char
  deriving DecidableEq, Repr

/-- A name without the angle brackets around it. -/
def stripBrackets (cs : List Char) : List Char :=
  match cs with
  | '<' :: inner => if inner.getLast? = some '>' then inner.dropLast else cs
  | _ => cs

/-- Cuts a line at its first colon. -/
def RuleLine.read (text : String) : Except Error RuleLine :=
  match cut? ':' text.toList with
  | none => .error (.invalidRule text)
  | some (before, after) =>
    let head := stripBrackets (trim before)
    if head.isEmpty then .error (.invalidRule text)
    else .ok ⟨text, String.ofList head, after⟩

/-- Reads the tokens of a body; `rule` is the line to be reported (§13). -/
def readBody (terminals : Alphabet) (p : Productions) (rule : String) :
    List Char → Except Error Body
  | [] => .ok []
  | c :: cs =>
    if isBlank c ∨ c = epsilonChar then readBody terminals p rule cs
    else if c = '<' then
      match _h : cut? '>' cs with
      | none => .error (.invalidRule rule)
      | some (name, rest) =>
        if String.ofList name ∈ p.keys then
          (.nonterminal (String.ofList name) :: ·) <$> readBody terminals p rule rest
        else .error (.unknownNonterminal (String.ofList name))
    else if c.toString ∈ p.keys then
      (.nonterminal c.toString :: ·) <$> readBody terminals p rule cs
    else if c ∈ terminals then (.terminal c :: ·) <$> readBody terminals p rule cs
    else .error (.unknownSymbol c)
termination_by cs => cs.length
decreasing_by
  · exact Nat.lt_succ_self _
  · exact Nat.lt_succ_of_lt (length_of_cut? _h)
  · exact Nat.lt_succ_self _
  · exact Nat.lt_succ_self _

/-- Reads the bodies of a rule; there are none if the text is blank. -/
def RuleLine.readBodies (terminals : Alphabet) (p : Productions) (r : RuleLine) :
    Except Error (List Body) :=
  if (trim r.bodies).isEmpty then .ok []
  else (pieces '|' r.bodies).mapM fun piece ↦
    if (trim piece).isEmpty then .error (.invalidRule r.text)
    else readBody terminals p r.text piece

end LanguageTheory.Grammar
