import LanguageTheory.Proofs.Grammar.Passes
import LanguageTheory.Proofs.Nfa.Constructions

/-!
# Checked construction of grammars

A grammar can be checked whenever it is put together: its start symbol must be a nonterminal, and
its bodies must consist of declared tokens. The transformations put together several grammars on
their way. None of these checks fails for the grammars of drafts and of automata, nor for what any
sequence of transformations makes of them.
-/

namespace LanguageTheory.Grammar

variable {g : Grammar}

/-! ### Transformations that check -/

/-- A grammar that was just put together, unless it is not well formed. -/
def checked? (g : Grammar) : Option Grammar := if g.WellFormed then some g else none

/-- The grammar of the useful symbols; each of the two restrictions and the result are checked. -/
def reduce? (g : Grammar) : Option Grammar := do
  let generating := g.generating
  let g ← (g.restrict generating.contains).checked?
  let reachable := g.reachable
  let g ← (g.restrict fun name ↦ reachable.contains (.nonterminal name)).checked?
  { g with
    terminals := .ofSet (g.terminals.chars.filter fun c ↦
      generating.contains g.start && reachable.contains (.terminal c)) }.checked?

/-- The proper grammar; each step checks what it makes. -/
def toProper? (g : Grammar) : Option Grammar := do
  let g ← g.removeEpsilon.checked?
  let g ← g.removeUnits.checked?
  g.reduce?

/-- The grammar in Chomsky normal form; the proper grammar and the result are checked. -/
def toChomsky? (g : Grammar) : Option Grammar := do
  let proper ← g.toProper?
  let b := proper.rules.foldl (fun b (head, body) ↦ b.cut head body)
    { productions := proper.productions, proxies := ∅, suffixes := ∅ : Binarization }
  { proper with productions := b.productions }.checked?

/-- The grammar without left recursion; it is checked also before it is reduced. -/
def removeLeftRecursion? (g : Grammar) : Option Grammar := do
  let proper ← g.toProper?
  let swept ← { proper with
    productions := proper.productions.removeRecursion [] proper.nonterminals }.checked?
  swept.reduce?

/-- The grammar in Greibach normal form; it is checked also before it is reduced. -/
def toGreibach? (g : Grammar) : Option Grammar := do
  let g ← g.removeLeftRecursion?
  let p := g.productions
  let expanded := p.leadingOrder.foldl Productions.expandLeading p
  let led ← { g with productions := expanded.proxyInner }.checked?
  led.reduce?

/-- The transformed grammar, with a check of every grammar that is put together. -/
def Pass.apply? : Pass → Grammar → Option Grammar
  | removeEpsilon, g => g.removeEpsilon.checked?
  | removeUnits, g => g.removeUnits.checked?
  | reduce, g => g.reduce?
  | toProper, g => g.toProper?
  | toChomsky, g => g.toChomsky?
  | removeLeftRecursion, g => g.removeLeftRecursion?
  | toGreibach, g => g.toGreibach?

/-! ### The checks hold -/

namespace WellFormed

variable (hg : g.WellFormed)
include hg

/-- A well-formed grammar passes its check. -/
theorem checked?_eq : g.checked? = some g := if_pos hg

/-- A restriction keeps the entries of the nonterminals that are left in bodies. -/
theorem restrict (keep : String → Bool) : (g.restrict keep).WellFormed := by
  obtain ⟨hstart, hclosed, hterminals⟩ := wellFormed_iff.mp hg
  refine wellFormed_iff.mpr ⟨?_, ?_, ?_⟩
  · exact mem_nonterminals_restrict.mpr ⟨hstart, .inl rfl⟩
  · rintro name ⟨head, body, hb, ht⟩
    obtain ⟨-, hbody, hnames⟩ := mem_bodies_restrict.mp hb
    exact mem_nonterminals_restrict.mpr ⟨hclosed name (.of_mem hbody ht), .inr (hnames name ht)⟩
  · rintro c ⟨head, body, hb, ht⟩
    exact hterminals c (.of_mem (mem_bodies_restrict.mp hb).2.1 ht)

/-- The checks of reduction hold. -/
theorem reduce?_eq : g.reduce? = some g.reduce := by
  rw [reduce?, (hg.restrict _).checked?_eq]
  dsimp only [Option.bind_eq_bind, Option.bind_some]
  rw [((hg.restrict _).restrict _).checked?_eq]
  exact hg.reduce.checked?_eq

/-- The checks on the way to a proper grammar hold. -/
theorem toProper?_eq : g.toProper? = some g.toProper := by
  rw [toProper?, hg.removeEpsilon.checked?_eq]
  dsimp only [Option.bind_eq_bind, Option.bind_some]
  rw [hg.removeEpsilon.removeUnits.checked?_eq]
  exact hg.removeEpsilon.removeUnits.reduce?_eq

/-- The checks of cutting bodies hold. -/
theorem toChomsky?_eq : g.toChomsky? = some g.toChomsky := by
  rw [toChomsky?, hg.toProper?_eq, Option.bind_eq_bind, Option.bind_some]
  exact hg.toChomsky.checked?_eq

/-- The checks of removing left recursion hold. -/
theorem removeLeftRecursion?_eq : g.removeLeftRecursion? = some g.removeLeftRecursion := by
  rw [removeLeftRecursion?, hg.toProper?_eq, Option.bind_eq_bind, Option.bind_some]
  -- The grammar before the last reduction is the swept one.
  change g.swept.checked? >>= Grammar.reduce? = _
  rw [hg.swept.checked?_eq, Option.bind_eq_bind, Option.bind_some, hg.swept.reduce?_eq,
    removeLeftRecursion_eq]

/-- The checks on the way to Greibach normal form hold. -/
theorem toGreibach?_eq : g.toGreibach? = some g.toGreibach := by
  rw [toGreibach?, hg.removeLeftRecursion?_eq, Option.bind_eq_bind, Option.bind_some]
  -- The grammar before the last reduction is the one all of whose bodies begin with a terminal.
  change g.terminalLed.checked? >>= Grammar.reduce? = _
  rw [hg.terminalLed.checked?_eq, Option.bind_eq_bind, Option.bind_some,
    hg.terminalLed.reduce?_eq, toGreibach_eq]

/-- The checks of a transformation hold. -/
theorem apply?_eq (pass : Pass) : pass.apply? g = some (pass.apply g) := by
  cases pass with
  | removeEpsilon => exact hg.removeEpsilon.checked?_eq
  | removeUnits => exact hg.removeUnits.checked?_eq
  | reduce => exact hg.reduce?_eq
  | toProper => exact hg.toProper?_eq
  | toChomsky => exact hg.toChomsky?_eq
  | removeLeftRecursion => exact hg.removeLeftRecursion?_eq
  | toGreibach => exact hg.toGreibach?_eq

/-- A transformation keeps a grammar well formed. -/
theorem apply (pass : Pass) : (pass.apply g).WellFormed := by
  cases pass with
  | removeEpsilon => exact hg.removeEpsilon
  | removeUnits => exact hg.removeUnits
  | reduce => exact hg.reduce
  | toProper => exact hg.toProper
  | toChomsky => exact hg.toChomsky
  | removeLeftRecursion => exact hg.removeLeftRecursion
  | toGreibach => exact hg.toGreibach

end WellFormed

/-! ### The grammars that the library makes -/

/-- The grammars that the library makes: of drafts, of automata, and of one another by
transformations. -/
inductive Constructible : Grammar → Prop where
  | draft {d : GrammarDraft} {g : Grammar} : d.toGrammar = .ok g → Constructible g
  | automaton {n : Nfa} {r : RegularGrammar} : n.Constructible → RegularGrammar.ofNfa? n = some r →
      Constructible r.grammar
  | pass (pass : Pass) {g : Grammar} : Constructible g → Constructible (pass.apply g)

/-- A grammar is well formed, however it was made. -/
theorem Constructible.wellFormed (h : g.Constructible) : g.WellFormed := by
  induction h with
  | draft h => exact GrammarDraft.wellFormed_of_toGrammar h
  | @automaton n r hn hr =>
    obtain ⟨hlabelled, hr⟩ := Option.ite_none_right_eq_some.mp hr
    cases hr
    exact (RegularGrammar.wellFormed_ofEpsilonFree hlabelled
      (RegularGrammar.readsDeclared_epsilonFree hn.readsDeclared)).grammar
  | pass pass _ ih => exact ih.apply pass

/-- However a grammar was made, its start symbol is a nonterminal and its bodies consist of declared
tokens, and the same is true of every grammar that a transformation puts together on its way, so
that no check fails. If the grammar is regular, its automaton is again one that the library
makes. -/
theorem Constructible.checks_hold (h : g.Constructible) :
    g.WellFormed ∧ (∀ pass : Pass, pass.apply? g = some (pass.apply g)) ∧
      ∀ r, RegularGrammar.ofGrammar g = .ok r → r.toNfa.Constructible :=
  ⟨h.wellFormed, h.wellFormed.apply?_eq, fun _ hr ↦
    .grammar (RegularGrammar.wellFormed_of_ofGrammar hr h.wellFormed)⟩

/-- A draft without words. -/
def wordlessDraft : GrammarDraft where
  start := "S"
  terminals := ['a']
  productions := [("S", [.terminal 'a', .nonterminal "S"])]

/-- A useless start symbol keeps its entry when all bodies that use it are dropped. -/
theorem checks_hold_wordless :
    ∃ g, wordlessDraft.toGrammar = .ok g ∧ Pass.reduce.apply? g = some
      { start := "S", terminals := .ofSet ∅, productions := .ofList [("S", ∅)] } := by
  let g : Grammar :=
    { start := "S"
      terminals := .ofSet (.ofList ['a'])
      productions := .ofList [("S", .ofList [[.terminal 'a', .nonterminal "S"]])] }
  have hdraft : wordlessDraft.toGrammar = .ok g := by decide +kernel
  have hchecks := (Constructible.checks_hold (.draft hdraft)).2.1
  exact ⟨g, hdraft, (hchecks .reduce).trans (congrArg some (by cbv))⟩

end LanguageTheory.Grammar
