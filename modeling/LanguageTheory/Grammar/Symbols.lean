import LanguageTheory.Collections.Closure
import LanguageTheory.Grammar.Basic

/-!
# Classes of symbols

Which nonterminals derive words, or the empty word, and which symbols the start symbol or another
nonterminal leads to: all of these are closures under the productions.

Spec guidance: `SPEC_FULL.md` §§4.4, 4.5, 12.8.
-/

namespace LanguageTheory.Grammar

/-- The nonterminals that have a body all of whose tokens are `good` by what is known. -/
def headsWith (g : Grammar) (good : OrderedSet String → Token → Bool)
    (known : OrderedSet String) : OrderedSet String :=
  OrderedSet.ofList ((g.productions.entries.filter fun (_, bodies) ↦
    bodies.toList.any fun body ↦ body.all (good known)).map Prod.fst)

/-- The nonterminals of a grammar are finitely many. -/
theorem bounded_headsWith (g : Grammar) (good : OrderedSet String → Token → Bool) :
    OrderedSet.Bounded (g.headsWith good) := by
  refine ⟨g.nonterminals, fun s x hx ↦ ?_⟩
  obtain ⟨e, he, rfl⟩ := List.mem_map.1 (OrderedSet.mem_ofList.1 hx)
  exact List.mem_map.2 ⟨e, (List.mem_filter.1 he).1, rfl⟩

/-- Whether a token derives a word, given nonterminals that do. -/
def isGenerating (known : OrderedSet String) (t : Token) : Bool :=
  t.name?.all known.contains

/-- Whether a token derives the empty word, given nonterminals that do. -/
def isNullable (known : OrderedSet String) (t : Token) : Bool :=
  t.name?.any known.contains

/-- The nonterminals that derive some word (§4.4). -/
def generating (g : Grammar) : OrderedSet String :=
  OrderedSet.closure (g.headsWith isGenerating) (g.bounded_headsWith _) ∅

/-- The nonterminals that derive the empty word (§4.4). -/
def nullable (g : Grammar) : OrderedSet String :=
  OrderedSet.closure (g.headsWith isNullable) (g.bounded_headsWith _) ∅

/-- All tokens of bodies. -/
def allTokens (g : Grammar) : List Token := g.rules.flatMap Prod.snd

/-- A body that is listed for a nonterminal belongs to a production. -/
theorem mem_rules_of_mem_bodies {g : Grammar} {name : String} {body : Body}
    (h : body ∈ g.bodies name) : (name, body) ∈ g.rules := by
  unfold bodies Productions.bodies Table.getD at h
  cases hb : g.productions.get? name with
  | none =>
    rw [hb] at h
    cases h
  | some bodies =>
    rw [hb] at h
    exact List.mem_flatMap.2 ⟨_, Table.get?_eq_some_iff.1 hb, List.mem_map.2 ⟨body, h, rfl⟩⟩

/-- A token of a body is a token of the grammar. -/
theorem mem_allTokens {g : Grammar} {name : String} {body : Body} {t : Token}
    (h : body ∈ g.bodies name) (ht : t ∈ body) : t ∈ g.allTokens :=
  List.mem_flatMap.2 ⟨_, mem_rules_of_mem_bodies h, ht⟩

/-- The tokens of the bodies of a token. -/
def bodyTokens (g : Grammar) (t : Token) : List Token :=
  t.name?.elim [] fun name ↦ (g.bodies name).flatten

/-- The tokens of a grammar are finitely many. -/
theorem bounded_bodyTokens (g : Grammar) :
    OrderedSet.Bounded (OrderedSet.successors g.bodyTokens) := by
  refine ⟨g.allTokens, fun s x hx ↦ ?_⟩
  obtain ⟨t, _, ht⟩ := OrderedSet.mem_successors.1 hx
  unfold bodyTokens at ht
  cases hn : t.name? with
  | none =>
    rw [hn] at ht
    cases ht
  | some name =>
    rw [hn] at ht
    obtain ⟨body, hb, hx⟩ := List.mem_flatten.1 ht
    exact mem_allTokens hb hx

/-- The tokens of the forms that the start symbol derives. -/
def reachable (g : Grammar) : OrderedSet Token :=
  OrderedSet.closure (OrderedSet.successors g.bodyTokens) g.bounded_bodyTokens
    (OrderedSet.singleton (.nonterminal g.start))

/-- Name of the only token of a body, if it is a nonterminal. -/
def unit? : Body → Option String
  | [.nonterminal name] => some name
  | _ => none

/-- The nonterminals that are bodies of a nonterminal by themselves. -/
def units (g : Grammar) (name : String) : List String := (g.bodies name).filterMap unit?

/-- Every nonterminal of a body is a nonterminal of the grammar's tokens. -/
theorem mem_names {g : Grammar} {name head : String} {body : Body} (h : body ∈ g.bodies head)
    (hn : .nonterminal name ∈ body) : name ∈ g.allTokens.filterMap Token.name? :=
  List.mem_filterMap.2 ⟨_, mem_allTokens h hn, rfl⟩

/-- The unit bodies of a grammar are finitely many. -/
theorem bounded_units (g : Grammar) : OrderedSet.Bounded (OrderedSet.successors g.units) := by
  refine ⟨g.allTokens.filterMap Token.name?, fun s x hx ↦ ?_⟩
  obtain ⟨name, _, hx⟩ := OrderedSet.mem_successors.1 hx
  obtain ⟨body, hb, hu⟩ := List.mem_filterMap.1 hx
  refine mem_names hb ?_
  unfold unit? at hu
  split at hu
  · cases hu
    simp
  · cases hu

/-- A nonterminal and all that it derives by unit productions alone (§4.4). -/
def unitClosure (g : Grammar) (name : String) : OrderedSet String :=
  OrderedSet.closure (OrderedSet.successors g.units) g.bounded_units (OrderedSet.singleton name)

/-- The nonterminals at the front of a body, up to the first token that does not derive the empty
word. -/
def corners (nullable : OrderedSet String) : Body → List String
  | .nonterminal name :: body =>
    if name ∈ nullable then name :: corners nullable body else [name]
  | _ => []

/-- The corners of a body are among its tokens. -/
theorem nonterminal_mem_of_mem_corners {nullable : OrderedSet String} {body : Body} {name : String}
    (h : name ∈ corners nullable body) : .nonterminal name ∈ body := by
  induction body with
  | nil => cases h
  | cons t body ih =>
    cases t with
    | terminal c => cases h
    | nonterminal m =>
      unfold corners at h
      split at h
      · rcases List.mem_cons.1 h with rfl | h
        · simp
        · exact List.mem_cons_of_mem _ (ih h)
      · rw [List.mem_singleton] at h
        simp [h]

/-- The corners of the bodies of a nonterminal. -/
def directCorners (g : Grammar) (nullable : OrderedSet String) (name : String) : List String :=
  (g.bodies name).flatMap (corners nullable)

/-- The corners of a grammar are finitely many. -/
theorem bounded_directCorners (g : Grammar) (nullable : OrderedSet String) :
    OrderedSet.Bounded (OrderedSet.successors (g.directCorners nullable)) := by
  refine ⟨g.allTokens.filterMap Token.name?, fun s x hx ↦ ?_⟩
  obtain ⟨name, _, hx⟩ := OrderedSet.mem_successors.1 hx
  obtain ⟨body, hb, hc⟩ := List.mem_flatMap.1 hx
  exact mem_names hb (nonterminal_mem_of_mem_corners hc)

/-- The nonterminals with which a form can begin that a nonterminal derives in one or more
steps (§12.8). -/
def leftCorners (g : Grammar) (name : String) : OrderedSet String :=
  let nullable := g.nullable
  OrderedSet.closure (OrderedSet.successors (g.directCorners nullable))
    (g.bounded_directCorners nullable) (OrderedSet.ofList (g.directCorners nullable name))

/-- Whether some nonterminal is a left corner of itself. -/
def isLeftRecursive (g : Grammar) : Bool :=
  g.nonterminals.any fun name ↦ (g.leftCorners name).contains name

end LanguageTheory.Grammar
