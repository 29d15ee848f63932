import LanguageTheory.Proofs.Grammar.EmptyBodies
import LanguageTheory.Proofs.Grammar.Reduction
import LanguageTheory.Proofs.Grammar.Units

/-!
# Proper grammars for the same words

Without empty bodies, then without units and then reduced, every well-formed grammar becomes a
proper grammar for the same words. Neither of the later passes undoes what the earlier ones did: no
other nonterminal gets the empty body, and no unit comes back.
-/

namespace LanguageTheory.Grammar

/-! ### Where the empty body is -/

/-- Removing units gives no other nonterminal the empty body. -/
theorem Noncontracting.removeUnits {g : Grammar} (h : g.Noncontracting) :
    g.removeUnits.Noncontracting := by
  intro name hb
  obtain ⟨_, m, hm, hb⟩ := mem_bodies_removeUnits.mp hb
  obtain ⟨rfl, huses⟩ := h m hb
  refine ⟨?_, fun hu ↦ huses (uses_of_uses_removeUnits hu)⟩
  rw [mem_unitClosure_iff] at hm
  cases hm.cases_tail with
  | inl he => exact he.symm
  | inr hstep =>
    obtain ⟨k, _, hk⟩ := hstep
    exact absurd (.of_mem (mem_units.mp hk) List.mem_cons_self) huses

/-- Reduction gives no other nonterminal the empty body. -/
theorem Noncontracting.reduce {g : Grammar} (h : g.Noncontracting) : g.reduce.Noncontracting := by
  intro name hb
  obtain ⟨he, huses⟩ := h name (mem_bodies_of_mem_bodies_reduce hb)
  exact ⟨he, fun hu ↦ huses (uses_of_uses_reduce hu)⟩

/-! ### Proper grammars -/

/-- A grammar is proper when it has no unit, an empty body at an unused start symbol only, and
either useful nonterminals only or nothing but its start symbol. -/
theorem isProper_iff {g : Grammar} :
    g.isProper = true ↔ (∀ name, ∀ body ∈ g.bodies name, unit? body = none) ∧ g.Noncontracting ∧
      (g.isReduced = true ∨ g.rules = [] ∧ g.nonterminals.length = 1) := by
  have hunits : (∀ rule ∈ g.rules, unit? rule.2 = none) ↔
      ∀ name, ∀ body ∈ g.bodies name, unit? body = none := by
    constructor
    · intro h name body hb
      exact h (name, body) (mem_rules_iff.mpr hb)
    · rintro h ⟨name, body⟩ hr
      exact h name body (mem_rules_iff.mp hr)
  unfold isProper
  simp only [Bool.and_eq_true, Bool.or_eq_true, List.all_eq_true, Option.isNone_iff_eq_none, hunits,
    isNoncontracting_iff, List.isEmpty_iff, decide_eq_true_eq, and_assoc]

/-- The proper grammar is well formed. -/
theorem WellFormed.toProper {g : Grammar} (hg : g.WellFormed) : g.toProper.WellFormed :=
  hg.removeEpsilon.removeUnits.reduce

/-- The proper grammar has the same words. -/
theorem generates_toProper_iff {g : Grammar} (hg : g.WellFormed) {w : List Char} :
    g.toProper.Generates w ↔ g.Generates w := by
  unfold toProper
  rw [generates_reduce_iff, generates_removeUnits_iff, generates_removeEpsilon_iff hg]

/-- The proper grammar has no unit. -/
theorem single_notMem_bodies_toProper {g : Grammar} {name unit : String} :
    [.nonterminal unit] ∉ g.toProper.bodies name :=
  fun hb ↦ single_notMem_bodies_removeUnits (mem_bodies_of_mem_bodies_reduce hb)

/-- The proper grammar has the empty body at an unused start symbol only. -/
theorem noncontracting_toProper {g : Grammar} (hg : g.WellFormed) : g.toProper.Noncontracting :=
  (noncontracting_removeEpsilon hg).removeUnits.reduce

/-- The nonterminals of the proper grammar are useful, or there is only the start symbol. -/
theorem isReduced_toProper {g : Grammar} (hg : g.WellFormed) :
    g.toProper.isReduced = true ∨ g.toProper.rules = [] ∧ g.toProper.nonterminals.length = 1 := by
  unfold toProper
  by_cases h : g.removeEpsilon.removeUnits.start ∈ g.removeEpsilon.removeUnits.generating
  · exact Or.inl (isReduced_reduce h)
  · rw [nonterminals_reduce_eq hg.removeEpsilon.removeUnits h]
    exact Or.inr ⟨rules_reduce_eq_nil h, rfl⟩

/-- A grammar with words has a proper grammar of useful nonterminals. -/
theorem useful_toProper {g : Grammar} (hg : g.WellFormed) {w : List Char} (hw : g.Generates w) :
    ∀ name ∈ g.toProper.nonterminals, g.toProper.Useful name := by
  rw [← generates_removeEpsilon_iff hg, ← generates_removeUnits_iff] at hw
  exact useful_reduce hw

/-- A grammar without words has a proper grammar of nothing but its start symbol. -/
theorem toProper_of_not_generates {g : Grammar} (hg : g.WellFormed) (h : ∀ w, ¬ g.Generates w) :
    g.toProper.nonterminals = [g.toProper.start] ∧ g.toProper.rules = [] ∧
      g.toProper.terminals.toList = [] := by
  refine reduce_of_not_generates hg.removeEpsilon.removeUnits fun w hw ↦ h w ?_
  rwa [generates_removeUnits_iff, generates_removeEpsilon_iff hg] at hw

/-- The terminals of the proper grammar are declared before. -/
theorem mem_terminals_of_mem_terminals_toProper {g : Grammar} {c : Char}
    (h : c ∈ g.toProper.terminals) : c ∈ g.terminals := by
  have h := mem_terminals_of_mem_terminals_reduce h
  rw [← terminals_removeEpsilon]
  exact h

/-- Every grammar has the words of its proper grammar, which has no unit, the empty body at most at
a start symbol that occurs in no body, and useful nonterminals only. Without words there is nothing
but the start symbol. -/
theorem toProper_correct {g : Grammar} (hg : g.WellFormed) :
    g.toProper.isProper = true ∧
      (∀ name unit, [.nonterminal unit] ∉ g.toProper.bodies name) ∧
      (∀ name, [] ∈ g.toProper.bodies name →
        name = g.toProper.start ∧ ¬ g.toProper.productions.Uses (.nonterminal g.toProper.start)) ∧
      ((∃ w, g.Generates w) → ∀ name ∈ g.toProper.nonterminals, g.toProper.Useful name) ∧
      ((∀ w, ¬ g.Generates w) → g.toProper.nonterminals = [g.toProper.start] ∧
        g.toProper.rules = [] ∧ g.toProper.terminals.toList = []) ∧
      ∀ w, g.toProper.Generates w ↔ g.Generates w := by
  refine ⟨isProper_iff.mpr ⟨?_, noncontracting_toProper hg, isReduced_toProper hg⟩,
    fun _ _ ↦ single_notMem_bodies_toProper, noncontracting_toProper hg, ?_,
    toProper_of_not_generates hg, fun w ↦ generates_toProper_iff hg⟩
  · intro name body hb
    cases hunit : unit? body with
    | none => rfl
    | some unit =>
      rw [unit?_eq_some_iff.mp hunit] at hb
      exact absurd hb single_notMem_bodies_toProper
  · rintro ⟨w, hw⟩
    exact useful_toProper hg hw

/-- The proper grammar of a grammar with the empty body, a cycle of units and useless
nonterminals. -/
theorem toProper_correct_tangled :
    tangled.WellFormed ∧ tangled.Generates [] ∧ tangled.toProper.isProper = true ∧
      (∀ name unit, [.nonterminal unit] ∉ tangled.toProper.bodies name) ∧
      (∀ name ∈ tangled.toProper.nonterminals, tangled.toProper.Useful name) ∧
      ∀ w, tangled.toProper.Generates w ↔ tangled.Generates w := by
  have hg : tangled.WellFormed := by decide
  have hempty : tangled.Generates [] := generates_iff.mpr ⟨[], by decide, .nil⟩
  obtain ⟨hproper, hunits, _, huseful, _, hwords⟩ := toProper_correct hg
  exact ⟨hg, hempty, hproper, hunits, huseful ⟨[], hempty⟩, hwords⟩

example : tangled.toProper.nonterminals = ["S'", "S"] := by cbv

end LanguageTheory.Grammar
