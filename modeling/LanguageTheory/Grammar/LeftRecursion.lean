import LanguageTheory.Grammar.Proper

/-!
# Removing left recursion

The nonterminals of a proper grammar are taken in order. In the bodies of each, a leading earlier
nonterminal is replaced by its bodies, and then the bodies that begin with the nonterminal itself
are replaced by repetition at the end, for which there is a fresh nonterminal.

Spec guidance: `SPEC_FULL.md` §§4.5, 13.
-/

namespace LanguageTheory.Grammar

namespace Productions

/-- Replaces `name` at the front of bodies of `head` by the bodies of `name` (§4.5). -/
def inlineFront (p : Productions) (head name : String) : Productions :=
  match p.get? head, p.get? name with
  | some bodies, some replacements =>
    if bodies.toList.any fun body ↦ leading? body = some name then
      p.insert head (OrderedSet.ofList (bodies.toList.flatMap fun body ↦
        if leading? body = some name then
          replacements.toList.map fun r ↦ r ++ body.tail
        else [body]))
    else p
  | _, _ => p

/-- Replaces bodies of `head` that begin with `head` by repetition at the end of the
others (§4.5). -/
def recurseAtEnd (p : Productions) (head : String) : Productions :=
  match p.get? head with
  | none => p
  | some bodies =>
    let recursive := bodies.toList.filter fun body ↦ leading? body = some head
    let others := bodies.toList.filter fun body ↦ leading? body ≠ some head
    if recursive.isEmpty then p
    else
      let tail := freshName (head ++ "'") p.keys
      let repeated (body : Body) : List Body := [body, body ++ [.nonterminal tail]]
      (p.insert head (OrderedSet.ofList (others.flatMap repeated))).insert tail
        (OrderedSet.ofList (recursive.flatMap fun body ↦ repeated body.tail))

/-- Removes the left recursion of the nonterminals that are listed, given earlier ones without left
recursion. -/
def removeRecursion (p : Productions) (earlier : List String) : List String → Productions
  | [] => p
  | head :: heads =>
    let p := earlier.foldl (fun p name ↦ p.inlineFront head name) p
    (p.recurseAtEnd head).removeRecursion (earlier ++ [head]) heads

end Productions

/-- The grammar without left recursion for the same words (§4.5). -/
def removeLeftRecursion (g : Grammar) : Grammar :=
  let proper := g.toProper
  { proper with
    productions := proper.productions.removeRecursion [] proper.nonterminals }.reduce

end LanguageTheory.Grammar
