import LanguageTheory.Proofs.Grammar.CoinedNames
import LanguageTheory.Proofs.Grammar.Draft
import Mathlib.Computability.Primrec.List
import Mathlib.Computability.TuringMachine.StackTuringMachine
import Mathlib.Data.List.Permutation

/-!
# Sequences of transformations

The transformations of grammars can be applied one after another. What is left is well formed, with
terminals of the first grammar and with names that are coined from it, so that the rule text gives
it back unless a name has a colon. Only the two normal forms put terminals into names.
-/

namespace LanguageTheory.Grammar

/-- A transformation of grammars. -/
inductive Pass where
  | removeEpsilon
  | removeUnits
  | reduce
  | toProper
  | toChomsky
  | removeLeftRecursion
  | toGreibach
  deriving DecidableEq

namespace Pass

/-- The transformed grammar. -/
def apply : Pass → Grammar → Grammar
  | removeEpsilon => Grammar.removeEpsilon
  | removeUnits => Grammar.removeUnits
  | reduce => Grammar.reduce
  | toProper => Grammar.toProper
  | toChomsky => Grammar.toChomsky
  | removeLeftRecursion => Grammar.removeLeftRecursion
  | toGreibach => Grammar.toGreibach

/-- Whether new nonterminals are named after terminals. -/
def namesTerminals : Pass → Bool
  | toChomsky | toGreibach => true
  | _ => false

/-- The grammar after several transformations. -/
def applyAll (passes : List Pass) (g : Grammar) : Grammar :=
  passes.foldl (fun g pass ↦ pass.apply g) g

end Pass

/-! ### What every transformation keeps -/

/-- What is kept of a grammar `g`: terminals of `g`, and names that are coined from it. -/
structure Descends (g : Grammar) (extra : Char → Prop) (k : Grammar) : Prop where
  wellFormed : k.WellFormed
  terminals : ∀ c ∈ k.terminals, c ∈ g.terminals
  names : k.productions.Coined g extra

namespace Descends

variable {g k : Grammar} {extra : Char → Prop}

/-- A grammar descends from itself. -/
theorem refl (hg : g.WellFormed) : Descends g extra g :=
  ⟨hg, fun _ hc ↦ hc, fun _ hname ↦ .inl hname⟩

/-- Removing units coins no name. -/
theorem removeUnits (h : Descends g extra k) : Descends g extra k.removeUnits := by
  have hkeys : k.removeUnits.productions.keys = k.productions.keys := nonterminals_removeUnits k
  refine ⟨h.wellFormed.removeUnits, h.terminals, fun name hname ↦ h.names name ?_⟩
  rwa [← hkeys]

/-- Reduction coins no name. -/
theorem reduce (h : Descends g extra k) : Descends g extra k.reduce where
  wellFormed := h.wellFormed.reduce
  terminals c hc := h.terminals c (mem_terminals_of_mem_terminals_reduce hc)
  names name hname := h.names name (mem_nonterminals_reduce.mp hname).1

variable (hg : g.WellNamed)
include hg

/-- Removing empty bodies coins at most a new start symbol. -/
theorem removeEpsilon (h : Descends g extra k) : Descends g extra k.removeEpsilon := by
  refine ⟨h.wellFormed.removeEpsilon, ?_, fun name hname ↦ ?_⟩
  · rw [terminals_removeEpsilon]
    exact h.terminals
  · have hstart := h.names _ h.wellFormed.start_mem
    rcases (mem_nonterminals_removeEpsilon h.wellFormed).mp hname with hname | rfl
    · exact h.names name hname
    · by_cases hnullable : k.start ∈ k.nullable
      · rw [start_removeEpsilon_of_mem hnullable]
        exact hstart.primed hg _
      · rw [start_removeEpsilon_eq hnullable]
        exact hstart

/-- The steps to a proper grammar coin at most a new start symbol. -/
theorem toProper (h : Descends g extra k) : Descends g extra k.toProper :=
  (h.removeEpsilon hg).removeUnits.reduce

/-- The sweep that removes left recursion coins its names. -/
theorem swept (h : Descends g extra k) : Descends g extra k.swept where
  wellFormed := h.wellFormed.swept
  terminals := (h.toProper hg).terminals
  names := (h.toProper hg).names.removeRecursion hg

/-- Removing left recursion coins its names. -/
theorem removeLeftRecursion (h : Descends g extra k) : Descends g extra k.removeLeftRecursion :=
  (h.swept hg).reduce

omit hg in
/-- The tokens of bodies are coined if the terminals are. -/
theorem coinedToken (h : Descends g extra k)
    (hextra : ∀ c ∈ g.terminals, isNameChar c = true ∨ extra c) {t : Token}
    (ht : k.productions.Uses t) : CoinedToken g extra t := by
  obtain ⟨_, hclosed, hterminals⟩ := wellFormed_iff.mp h.wellFormed
  cases t with
  | terminal c => exact hextra c (h.terminals c (hterminals c ht))
  | nonterminal name => exact h.names name (hclosed name ht)

/-- Cutting bodies coins its names, some of them from terminals. -/
theorem toChomsky (h : Descends g extra k)
    (hextra : ∀ c ∈ g.terminals, isNameChar c = true ∨ extra c) :
    Descends g extra k.toChomsky := by
  have hproper := h.toProper hg
  refine ⟨h.wellFormed.toChomsky, hproper.terminals, ?_⟩
  rw [productions_toChomsky]
  refine Binarization.coined_foldl_cut hg hproper.names fun rule hrule ↦ ?_
  have hbody := mem_rules_iff.mp hrule
  refine ⟨hproper.names _ (Productions.mem_keys_of_mem_bodies hbody), fun t ht ↦ ?_⟩
  exact hproper.coinedToken hextra (.of_mem hbody ht)

/-- Replacing inner terminals coins its names from them. -/
theorem toGreibach (h : Descends g extra k)
    (hextra : ∀ c ∈ g.terminals, isNameChar c = true ∨ extra c) :
    Descends g extra k.toGreibach := by
  have hcleared := h.removeLeftRecursion hg
  have hexpanded := expanded_removeLeftRecursion h.wellFormed
  rw [toGreibach_eq]
  refine Descends.reduce ⟨h.wellFormed.terminalLed, hcleared.terminals, ?_⟩
  rw [productions_terminalLed]
  refine Productions.Coined.proxyInner hg (fun name hname ↦ hcleared.names name ?_) fun c hc ↦ ?_
  · rwa [← hexpanded.keys]
  · exact hcleared.coinedToken hextra (hexpanded.uses _ hc)

/-- What every transformation keeps. -/
theorem apply {pass : Pass} (h : Descends g extra k)
    (hextra : pass.namesTerminals = true → ∀ c ∈ g.terminals, isNameChar c = true ∨ extra c) :
    Descends g extra (pass.apply k) := by
  cases pass with
  | removeEpsilon => exact h.removeEpsilon hg
  | removeUnits => exact h.removeUnits
  | reduce => exact h.reduce
  | toProper => exact h.toProper hg
  | toChomsky => exact h.toChomsky hg (hextra rfl)
  | removeLeftRecursion => exact h.removeLeftRecursion hg
  | toGreibach => exact h.toGreibach hg (hextra rfl)

/-- What every sequence of transformations keeps. -/
theorem applyAll {passes : List Pass} (h : Descends g extra k)
    (hextra : (∃ pass ∈ passes, pass.namesTerminals = true) →
      ∀ c ∈ g.terminals, isNameChar c = true ∨ extra c) :
    Descends g extra (Pass.applyAll passes k) := by
  induction passes generalizing k with
  | nil => exact h
  | cons pass passes ih =>
    have hfirst := h.apply hg fun hpass ↦ hextra ⟨pass, List.mem_cons_self, hpass⟩
    refine ih hfirst ?_
    rintro ⟨other, hother, hnames⟩
    exact hextra ⟨other, List.mem_cons_of_mem _ hother, hnames⟩

/-- A grammar that descends from a well-named one is well named if the extra characters of its names
are characters of names. -/
theorem wellNamed (h : Descends g extra k)
    (hnames : ∀ name ∈ k.nonterminals, ∀ c ∈ name.toList, extra c → isNameChar c = true) :
    k.WellNamed where
  terminal c hc := hg.terminal c (h.terminals c hc)
  valid name hname := by
    refine isValidName_iff.mpr ⟨(h.names name hname).toList_ne_nil hg, fun c hc ↦ ?_⟩
    exact ((h.names name hname).mem_toList hg hc).elim id (hnames name hname c hc)
  apart c hc hname := by
    rcases h.names _ hname with hold | ⟨hlength, _⟩
    · exact hg.apart c (h.terminals c hc) hold
    · simp at hlength

end Descends

/-! ### Rule text of transformed grammars -/

variable {d : GrammarDraft} {g k : Grammar} {passes : List Pass}

/-- A character that can be a terminal is a character of names unless it is the colon. -/
theorem WellNamed.isNameChar_or_eq_colon (h : g.WellNamed) :
    ∀ c ∈ g.terminals, isNameChar c = true ∨ c = ':' := by
  intro c hc
  obtain ⟨hreserved, hepsilon⟩ := h.terminal c hc
  by_cases hcolon : c = ':'
  · exact .inr hcolon
  · exact .inl (isNameChar_iff.mpr ⟨hreserved, hcolon, hepsilon⟩)

/-- After any transformations, the grammar of a draft is well named exactly when no name has a
colon, and exactly then its rule text gives it back. Only a colon that is a terminal can come into a
name, and only by a normal form. -/
theorem wellNamed_applyAll_iff (h : d.toGrammar = .ok g) (hk : Pass.applyAll passes g = k) :
    (k.WellNamed ↔ ∀ name ∈ k.nonterminals, ':' ∉ name.toList) ∧
      ((∃ r, parse k.start k.terminals.toList k.render = .ok r ∧ r ≈ k) ↔ k.WellNamed) ∧
      ((':' ∉ g.terminals ∨ ∀ pass ∈ passes, pass.namesTerminals = false) → k.WellNamed) := by
  have hwell : g.WellFormed := GrammarDraft.wellFormed_of_toGrammar h
  have hg : g.WellNamed := GrammarDraft.wellNamed_of_toGrammar h
  have hcolon : Descends g (· = ':') k :=
    hk ▸ (Descends.refl hwell).applyAll hg fun _ ↦ hg.isNameChar_or_eq_colon
  refine ⟨⟨fun hnamed name hname hc ↦ ?_, fun hnames ↦ hcolon.wellNamed hg ?_⟩,
    parse_render_iff hcolon.wellFormed, fun hnone ↦ ?_⟩
  · have hchar := (isValidName_iff.mp (hnamed.valid name hname)).2 _ hc
    exact (isNameChar_iff.mp hchar).2.1 rfl
  · rintro name hname c hc rfl
    exact absurd hc (hnames name hname)
  · -- Nothing but characters of names comes into names.
    have hplain : Descends g (fun _ ↦ False) k := by
      rw [← hk]
      refine (Descends.refl hwell).applyAll hg ?_
      rintro ⟨pass, hpass, hnames⟩ c hc
      rcases hnone with hnone | hnone
      · refine (hg.isNameChar_or_eq_colon c hc).imp_right ?_
        rintro rfl
        exact hnone hc
      · rw [hnone pass hpass] at hnames
        cases hnames
    exact hplain.wellNamed hg fun _ _ _ _ hfalse ↦ hfalse.elim

/-- Without a normal form, a colon comes into no name. -/
theorem wellNamed_applyAll_quoted :
    quotedDraft.toGrammar = .ok quoted ∧
      (Pass.applyAll [.removeLeftRecursion, .removeEpsilon, .toProper] quoted).WellNamed := by
  have h : quotedDraft.toGrammar = .ok quoted := by decide +kernel
  exact ⟨h, (wellNamed_applyAll_iff h rfl).2.2 (.inr (by decide))⟩

/-- A draft of which the colon is a terminal beside another token. -/
def colonDraft : GrammarDraft where
  start := "S"
  terminals := ['a', ':']
  productions := [("S", [.terminal 'a', .terminal ':'])]

/-- The grammar of this draft. -/
def colon : Grammar where
  start := "S"
  terminals := .ofSet (.ofList ['a', ':'])
  productions := .ofList [("S", .ofList [[.terminal 'a', .terminal ':']])]

/-- Its Chomsky normal form. -/
def colonChomsky : Grammar where
  start := "S"
  terminals := .ofSet (.ofList ['a', ':'])
  productions := .ofList [
    ("S", .ofList [[.nonterminal "[a]", .nonterminal "[:]"]]),
    ("[:]", .ofList [[.terminal ':']]),
    ("[a]", .ofList [[.terminal 'a']])]

/-- The Chomsky normal form has a name with a colon, so that its rule text is not read. -/
theorem not_wellNamed_toChomsky_colon :
    colonDraft.toGrammar = .ok colon ∧ Pass.applyAll [.toChomsky] colon = colonChomsky ∧
      ¬ colonChomsky.WellNamed ∧
      parse colonChomsky.start colonChomsky.terminals.toList colonChomsky.render =
        .error (.invalidName "<[") := by
  -- The evaluation unfolds lookups in tables by equations that the imports from Mathlib state.
  refine ⟨by decide +kernel, by cbv, fun h ↦ ?_, by decide +kernel⟩
  exact absurd (h.valid "[:]" (by decide)) (by decide)

end LanguageTheory.Grammar
