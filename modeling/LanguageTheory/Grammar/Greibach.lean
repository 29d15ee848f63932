import LanguageTheory.Grammar.LeftRecursion
import LanguageTheory.Search.DepthFirst

/-!
# Greibach normal form

Every body is a terminal followed by nonterminals, except for an empty body of a start symbol that
occurs in no body. Without left recursion, leading nonterminals can be replaced by their bodies in
an order in which every nonterminal comes after those that its bodies begin with.

Spec guidance: `SPEC_FULL.md` §§4.5, 12.8, 12.9.
-/

namespace LanguageTheory.Grammar

/-- Whether a grammar is in Greibach normal form. -/
def isGreibach (g : Grammar) : Bool :=
  g.rules.all fun (head, body) ↦
    match body with
    | [] => head = g.start && !g.usesStart
    | .terminal _ :: rest => rest.all fun t ↦ !t.isTerminal
    | .nonterminal _ :: _ => false

namespace Productions

/-- The nonterminals that bodies of a nonterminal begin with. -/
def leadingNames (p : Productions) (name : String) : List String :=
  (p.bodies name).filterMap leading?

/-- All names of a table and those that its bodies begin with. -/
def leadingCarrier (p : Productions) : List String :=
  p.keys ++ p.keys.flatMap p.leadingNames

/-- Names that bodies begin with are in the universe of such names. -/
theorem mem_leadingCarrier (p : Productions) (name : String) :
    ∀ n ∈ p.leadingNames name, n ∈ p.leadingCarrier := by
  intro n hn
  refine List.mem_append_right _ (List.mem_flatMap.2 ⟨name, ?_, hn⟩)
  refine Classical.byContradiction fun hk ↦ ?_
  rw [← Table.get?_eq_none_iff] at hk
  simp only [leadingNames, bodies, Table.getD, hk] at hn
  cases hn

/-- The nonterminals in an order in which those that a body begins with come first, unless there is
a cycle. -/
def leadingOrder (p : Productions) : List String :=
  DepthFirst.order p.leadingNames p.leadingCarrier p.mem_leadingCarrier p.keys
    fun _ h ↦ List.mem_append_left _ h

/-- Replaces every nonterminal at the front of bodies of `head` by its bodies, once. -/
def expandLeading (p : Productions) (head : String) : Productions :=
  (OrderedSet.ofList (p.leadingNames head)).toList.foldl
    (fun p name ↦ p.inlineFront head name) p

/-- Name of the nonterminal for a terminal that is not at the front. -/
def proxyName (p : Productions) (c : Char) : String :=
  freshName ("[" ++ c.toString ++ "]") p.keys

/-- A token that is not at the front, as a nonterminal. -/
def proxyToken (p : Productions) : Token → Token
  | .terminal c => .nonterminal (p.proxyName c)
  | .nonterminal name => .nonterminal name

/-- A body with nonterminals for the terminals that are not at the front. -/
def proxyBody (p : Productions) : Body → Body
  | [] => []
  | t :: rest => t :: rest.map p.proxyToken

/-- The character of a terminal. -/
def terminal? : Token → Option Char
  | .terminal c => some c
  | .nonterminal _ => none

/-- The terminals that are not at the front of some body, in increasing order. -/
def innerTerminals (p : Productions) : List Char :=
  (OrderedSet.ofList (p.values.flatMap fun bodies ↦
    bodies.toList.flatMap fun body ↦ body.tail.filterMap terminal?)).sorted

/-- Replaces the terminals that are not at the front of a body by nonterminals for them. -/
def proxyInner (p : Productions) : Productions :=
  (p.mapValues fun _ bodies ↦ bodies.map p.proxyBody).insertMany
    (p.innerTerminals.map fun c ↦ (p.proxyName c, OrderedSet.singleton [.terminal c]))

end Productions

/-- The grammar in Greibach normal form for the same words (§4.5). -/
def toGreibach (g : Grammar) : Grammar :=
  let g := g.removeLeftRecursion
  let p := g.productions
  let expanded := p.leadingOrder.foldl Productions.expandLeading p
  { g with productions := expanded.proxyInner }.reduce

end LanguageTheory.Grammar
