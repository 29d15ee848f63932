import LanguageTheory.Grammar.RuleText

/-!
# Drafts of grammars

A draft lists the parts of a grammar in any order: names, rules in text, and productions as lists
of tokens. Nothing is checked until a grammar is made of it. The nonterminals are then the start
symbol, the declared names and the heads of all rules and productions.

Spec guidance: `SPEC_FULL.md` §§6, 7, 11.3, 13.
-/

namespace LanguageTheory

/-- Description of a grammar. -/
structure GrammarDraft where
  start : String
  terminals : List Char := []
  nonterminals : List String := []
  rules : List String := []
  productions : List (String × Grammar.Body) := []
  deriving DecidableEq

namespace GrammarDraft

open Grammar

/-- Declares terminals. -/
def addTerminals (d : GrammarDraft) (cs : List Char) : GrammarDraft :=
  { d with terminals := d.terminals ++ cs }

/-- Declares nonterminals. -/
def addNonterminals (d : GrammarDraft) (names : List String) : GrammarDraft :=
  { d with nonterminals := d.nonterminals ++ names }

/-- Adds lines of rule text. -/
def addRules (d : GrammarDraft) (texts : List String) : GrammarDraft :=
  { d with rules := d.rules ++ texts }

/-- Adds the lines of a text that are not blank. -/
def addRuleText (d : GrammarDraft) (text : String) : GrammarDraft :=
  let kept := (lines text.toList).filter fun l ↦ !(trim l).isEmpty
  d.addRules (kept.map String.ofList)

/-- Adds productions. -/
def addProductions (d : GrammarDraft) (ps : List (String × Body)) : GrammarDraft :=
  { d with productions := d.productions ++ ps }

/-- The terminals, none of which may be blank or have a meaning of its own in rule text. -/
def readTerminals (cs : List Char) : Except Error Alphabet := do
  let terminals ← Alphabet.ofChars cs
  match terminals.toList.find? isReserved with
  | some c => throw (.malformedAlphabet c)
  | none => return terminals

/-- Declares a nonterminal without bodies; its name must be valid and no terminal. -/
def declare (terminals : Alphabet) (p : Productions) (name : String) :
    Except Error Productions :=
  if isValidName name then
    match name.toList with
    | [c] =>
      if c ∈ terminals then .error (.malformedAlphabet c)
      else .ok (p.upsert name fun bodies ↦ bodies.getD ∅)
    | _ => .ok (p.upsert name fun bodies ↦ bodies.getD ∅)
  else .error (.invalidName name)

/-- Checks that a token is declared. -/
def checkToken (terminals : Alphabet) (p : Productions) : Token → Except Error Unit
  | .terminal c => if c ∈ terminals then .ok () else .error (.unknownSymbol c)
  | .nonterminal name =>
    if name ∈ p.keys then .ok () else .error (.unknownNonterminal name)

/-- The grammar that a draft describes (§7). -/
def toGrammar (d : GrammarDraft) : Except Error Grammar := do
  let terminals ← readTerminals d.terminals
  let rules ← d.rules.mapM RuleLine.read
  let names := d.start :: d.nonterminals ++ rules.map RuleLine.head ++ d.productions.map Prod.fst
  let declared ← names.foldlM (declare terminals) ∅
  let read ← rules.mapM fun r ↦ do
    let bodies ← r.readBodies terminals declared
    return bodies.map fun body ↦ (r.head, body)
  d.productions.forM fun (_, body) ↦ body.forM (checkToken terminals declared)
  return {
    start := d.start
    terminals := terminals
    productions := (read.flatten ++ d.productions).foldl
      (fun p (head, body) ↦ p.add head body) declared }

end GrammarDraft

namespace Grammar

/-- The grammar with a given start symbol and terminals that a rule text describes. -/
def parse (start : String) (terminals : List Char) (rules : String) : Except Error Grammar :=
  (({ start := start } : GrammarDraft).addTerminals terminals |>.addRuleText rules).toGrammar

end Grammar

end LanguageTheory
