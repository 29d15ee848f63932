import LanguageTheory.Alphabet
import LanguageTheory.Collections.Table
import LanguageTheory.Grammar.Token
import LanguageTheory.Text.FreshName

/-!
# Context-free grammars

A grammar maps each nonterminal to a set of bodies. Replacing a nonterminal by one of its bodies is
a step of a derivation, and the grammar generates the words that the start symbol derives.

Spec guidance: `SPEC_FULL.md` §§3, 12.1.
-/

namespace LanguageTheory

/-- The bodies of each nonterminal. -/
abbrev Grammar.Productions := Table String (OrderedSet Grammar.Body)

/-- Context-free grammar. -/
structure Grammar where
  start : String
  terminals : Alphabet
  productions : Grammar.Productions
  deriving DecidableEq

namespace Grammar

/-- Bodies of a nonterminal, none for another name. -/
def Productions.bodies (p : Productions) (name : String) : List Body :=
  (p.getD name ∅).toList

/-- Adds a body to those of a nonterminal. -/
def Productions.add (p : Productions) (head : String) (body : Body) : Productions :=
  p.upsert head fun bodies ↦ (bodies.getD ∅).insert body

/-- Whether a token is declared: a terminal of the alphabet or the name of a table entry. -/
def Declared (terminals : Alphabet) (p : Productions) : Token → Prop
  | .terminal c => c ∈ terminals
  | .nonterminal name => name ∈ p.keys

/-- What every grammar of this library satisfies: its start symbol is a nonterminal, and its bodies
consist of declared tokens. -/
structure WellFormed (g : Grammar) : Prop where
  start_mem : g.start ∈ g.productions.keys
  declared : ∀ bodies ∈ g.productions.values, ∀ body ∈ bodies, ∀ t ∈ body,
    Declared g.terminals g.productions t

/-- A grammar is well named when rule text can express it: its terminals are neither reserved nor
`ε`, and the names of its nonterminals are valid and no terminals. -/
structure WellNamed (g : Grammar) : Prop where
  terminal : ∀ c ∈ g.terminals, isReserved c = false ∧ c ≠ epsilonChar
  valid : ∀ name ∈ g.productions.keys, isValidName name = true
  apart : ∀ c ∈ g.terminals, c.toString ∉ g.productions.keys

/-- Two grammars are equivalent as descriptions when they differ in the order of their sets at
most. -/
instance : HasEquiv Grammar :=
  ⟨fun g h ↦ g.start = h.start ∧ g.terminals ≈ h.terminals ∧ g.productions ≈ h.productions⟩

instance (g h : Grammar) : Decidable (g ≈ h) :=
  inferInstanceAs (Decidable (g.start = h.start ∧ g.terminals ≈ h.terminals ∧
    g.productions ≈ h.productions))

/-- Names of the nonterminals. -/
def nonterminals (g : Grammar) : List String := g.productions.keys

/-- Whether a name is a nonterminal. -/
def isNonterminal (g : Grammar) (name : String) : Bool := g.productions.contains name

/-- Whether a character is a terminal. -/
def isTerminal (g : Grammar) (c : Char) : Bool := g.terminals.contains c

/-- Bodies of a nonterminal, none for another name. -/
def bodies (g : Grammar) (name : String) : List Body := g.productions.bodies name

/-- All productions: head and body. -/
def rules (g : Grammar) : List (String × Body) :=
  g.productions.entries.flatMap fun (head, bodies) ↦ bodies.toList.map fun body ↦ (head, body)

/-- A name for a new nonterminal. -/
def freshNonterminal (g : Grammar) (base : String) : String := freshName base g.nonterminals

/-- Whether the start symbol occurs in a body. -/
def usesStart (g : Grammar) : Bool :=
  g.rules.any fun (_, body) ↦ body.contains (.nonterminal g.start)

/-- One step of a derivation: a nonterminal is replaced by one of its bodies. -/
inductive Step (g : Grammar) : Body → Body → Prop where
  | replace (before after : Body) {name : String} {body : Body} :
      body ∈ g.bodies name →
        Step g (before ++ .nonterminal name :: after) (before ++ body ++ after)

/-- Any number of steps of a derivation. -/
inductive Derives (g : Grammar) : Body → Body → Prop where
  | refl (form : Body) : Derives g form form
  | step {form next last : Body} : g.Step form next → Derives g next last → Derives g form last

/-- The start symbol derives a word. -/
def Generates (g : Grammar) (w : List Char) : Prop :=
  g.Derives [.nonterminal g.start] (w.map .terminal)

/-- One line of rule text: a nonterminal and its bodies. -/
def renderRule (head : String) (bodies : OrderedSet Body) : String :=
  renderName head ++ ":" ++
    String.intercalate " |" (bodies.toList.map fun body ↦ " " ++ renderBody body) ++ "\n"

/-- A grammar in rule text, one line for each nonterminal. -/
def render (g : Grammar) : String :=
  String.join (g.productions.entries.map fun (head, bodies) ↦ renderRule head bodies)

end Grammar

end LanguageTheory
