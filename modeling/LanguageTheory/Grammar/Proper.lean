import LanguageTheory.Grammar.Reduction

/-!
# Proper grammars

A proper grammar has no body that is empty or a single nonterminal, except that the start symbol
may have the empty body if it occurs in no body, and all its symbols are useful.

Spec guidance: `SPEC_FULL.md` §§4.4, 12.8, 13.
-/

namespace LanguageTheory.Grammar

/-- The variants of a body without some of its erasable tokens; keeping comes before erasing. -/
def variants (erasable : Token → Bool) : Body → List Body
  | [] => [[]]
  | t :: body =>
    let rest := variants erasable body
    -- The choice for the first token comes first in the order of the variants.
    if erasable t then rest.map (t :: ·) ++ rest else rest.map (t :: ·)

/-- The grammar without empty bodies. If the start symbol derives the empty word, a fresh start
symbol has the empty body and the old start symbol as its bodies (§4.4). -/
def removeEpsilon (g : Grammar) : Grammar :=
  let nullable := g.nullable
  let erased : Productions := g.productions.mapValues fun _ bodies ↦
    OrderedSet.ofList ((bodies.toList.flatMap (variants (isNullable nullable))).filter
      fun body ↦ !body.isEmpty)
  if g.start ∈ nullable then
    let start := g.freshNonterminal (g.start ++ "'")
    { start := start
      terminals := g.terminals
      productions := (Table.ofList [(start, OrderedSet.ofList [[], [.nonterminal g.start]])])
        |>.insertMany erased.entries }
  else { g with productions := erased }

/-- The grammar without bodies that are a single nonterminal: each nonterminal takes over the other
bodies of all that it derives by such bodies (§4.4). -/
def removeUnits (g : Grammar) : Grammar :=
  { g with
    productions := g.productions.mapValues fun head _ ↦
      OrderedSet.ofList (((g.unitClosure head).toList.flatMap g.bodies).filter
        fun body ↦ (unit? body).isNone) }

/-- The proper grammar for the same words (§4.4). -/
def toProper (g : Grammar) : Grammar := g.removeEpsilon.removeUnits.reduce

/-- Whether only the start symbol has the empty body, and only if it occurs in no body. -/
def isNoncontracting (g : Grammar) : Bool :=
  g.rules.all fun (head, body) ↦ !body.isEmpty || (head = g.start && !g.usesStart)

/-- Whether a grammar is proper; without any production it has to consist of its start symbol. -/
def isProper (g : Grammar) : Bool :=
  let noUnits := g.rules.all fun (_, body) ↦ (unit? body).isNone
  let useful := g.isReduced || (g.rules.isEmpty && g.nonterminals.length = 1)
  noUnits && g.isNoncontracting && useful

end LanguageTheory.Grammar
