import LanguageTheory.Grammar.Symbols

/-!
# Reduction

A symbol is useful when it occurs in a derivation of a word. Reduction removes first the
nonterminals that derive no word, and then all that the start symbol does not lead to.

Spec guidance: `SPEC_FULL.md` §4.4.
-/

namespace LanguageTheory.Grammar

/-- The nonterminals in `keep` and their bodies over them. The start symbol stays in any case, but
bodies that use it are dropped unless it is in `keep`. -/
def restrict (g : Grammar) (keep : String → Bool) : Grammar :=
  { g with
    productions := (g.productions.filterKeys fun head ↦ head = g.start || keep head).mapValues
      fun _ bodies ↦ bodies.filter fun body ↦ body.all fun t ↦ t.name?.all keep }

/-- The grammar of the useful symbols; if there are no words, only the start symbol is
left (§4.4). -/
def reduce (g : Grammar) : Grammar :=
  let generating := g.generating
  let g := g.restrict generating.contains
  let reachable := g.reachable
  let g := g.restrict fun name ↦ reachable.contains (.nonterminal name)
  { g with
    terminals := .ofSet (g.terminals.chars.filter fun c ↦
      generating.contains g.start && reachable.contains (.terminal c)) }

/-- Whether every nonterminal derives a word and occurs in a form that the start symbol derives. -/
def isReduced (g : Grammar) : Bool :=
  let generating := g.generating
  let reachable := g.reachable
  g.nonterminals.all fun name ↦
    generating.contains name && reachable.contains (.nonterminal name)

end LanguageTheory.Grammar
