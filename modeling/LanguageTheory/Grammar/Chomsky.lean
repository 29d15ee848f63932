import LanguageTheory.Grammar.Proper

/-!
# Chomsky normal form

Every body is one terminal or two nonterminals, except for an empty body of a start symbol that
occurs in no body. Longer bodies are cut after their first token: the rest gets a nonterminal of its
own, one for each sequence of tokens, and a terminal beside other tokens is replaced by a
nonterminal that stands for it.

Spec guidance: `SPEC_FULL.md` §§4.4, 12.8, 13.
-/

namespace LanguageTheory.Grammar

/-- Whether a grammar is in Chomsky normal form. -/
def isChomsky (g : Grammar) : Bool :=
  g.isNoncontracting && g.rules.all fun (_, body) ↦
    match body with
    | [] => true
    | [.terminal _] => true
    | [.nonterminal _, .nonterminal _] => true
    | _ => false

/-- Productions while bodies are cut, with the nonterminals that were made so far. -/
structure Binarization where
  productions : Productions
  /-- Nonterminals that stand for a terminal. -/
  proxies : Table Char String
  /-- Nonterminals that stand for a sequence of tokens. -/
  suffixes : Table Body String
  deriving DecidableEq

namespace Binarization

/-- The nonterminal for a token of a longer body. -/
def proxy (b : Binarization) : Token → Token × Binarization
  | .nonterminal name => (.nonterminal name, b)
  | .terminal c =>
    match b.proxies.get? c with
    | some name => (.nonterminal name, b)
    | none =>
      let name := freshName ("[" ++ c.toString ++ "]") b.productions.keys
      (.nonterminal name,
        { b with
          productions := b.productions.add name [.terminal c]
          proxies := b.proxies.insert c name })

/-- The nonterminal for the end of a longer body. -/
def suffix (b : Binarization) : Body → Token × Binarization
  | [] => (default, b)
  | [t] => b.proxy t
  | t :: rest =>
    match b.suffixes.get? (t :: rest) with
    | some name => (.nonterminal name, b)
    | none =>
      let text := String.join ((t :: rest).map Token.bareText)
      let name := freshName ("[" ++ text ++ "]") b.productions.keys
      -- The name is taken before the shorter ends are named.
      let b : Binarization :=
        { b with
          productions := b.productions.insert name ∅
          suffixes := b.suffixes.insert (t :: rest) name }
      let (tail, b) := b.suffix rest
      let (first, b) := b.proxy t
      (.nonterminal name, { b with productions := b.productions.add name [first, tail] })

/-- Replaces a body of two or more tokens by one of two nonterminals. -/
def cut (b : Binarization) (head : String) : Body → Binarization
  | t :: u :: rest =>
    let b := { b with
      productions := b.productions.modify head fun bodies ↦ bodies.filter (· ≠ t :: u :: rest) }
    let (tail, b) := b.suffix (u :: rest)
    let (first, b) := b.proxy t
    { b with productions := b.productions.add head [first, tail] }
  | _ => b

end Binarization

/-- The grammar in Chomsky normal form for the same words (§4.4). -/
def toChomsky (g : Grammar) : Grammar :=
  let proper := g.toProper
  let b := proper.rules.foldl (fun b (head, body) ↦ b.cut head body)
    { productions := proper.productions, proxies := ∅, suffixes := ∅ : Binarization }
  { proper with productions := b.productions }

end LanguageTheory.Grammar
