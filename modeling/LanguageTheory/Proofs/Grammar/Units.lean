import LanguageTheory.Grammar.Proper
import LanguageTheory.Proofs.Grammar.Symbols

/-!
# Removing units

A nonterminal that takes over the other bodies of its unit closure needs no unit: the words of a
unit come from bodies of its closure, however long the chains of units are and also if they lead
back. All nonterminals keep their words.
-/

namespace LanguageTheory.Grammar

/-- The bodies are those of the unit closure that are no units. -/
theorem mem_bodies_removeUnits {g : Grammar} {name : String} {body : Body} :
    body ∈ g.removeUnits.bodies name ↔
      unit? body = none ∧ ∃ m ∈ g.unitClosure name, body ∈ g.bodies m := by
  unfold Grammar.bodies removeUnits
  rw [Productions.mem_bodies_mapValues]
  simp only [OrderedSet.mem_ofList, List.mem_filter, List.mem_flatMap, Option.isNone_iff_eq_none]
  constructor
  · rintro ⟨_, _, ⟨m, hm, hb⟩, hunit⟩
    exact ⟨hunit, m, hm, hb⟩
  · rintro ⟨hunit, m, hm, hb⟩
    have hkey : name ∈ g.nonterminals := by
      rw [mem_unitClosure_iff] at hm
      cases hm.cases_head with
      | inl he =>
        subst he
        exact Productions.mem_keys_of_mem_bodies hb
      | inr hstep =>
        obtain ⟨unit, hu, _⟩ := hstep
        exact Productions.mem_keys_of_mem_bodies (mem_units.mp hu)
    obtain ⟨bodies, hn⟩ := Table.mem_keys_iff.mp hkey
    exact ⟨bodies, hn, ⟨m, hm, hb⟩, hunit⟩

/-- Removing units keeps the nonterminals. -/
theorem nonterminals_removeUnits (g : Grammar) : g.removeUnits.nonterminals = g.nonterminals :=
  Table.keys_mapValues _ _

/-- Removing units uses no new token. -/
theorem uses_of_uses_removeUnits {g : Grammar} {t : Token}
    (h : g.removeUnits.productions.Uses t) : g.productions.Uses t := by
  obtain ⟨name, body, hb, ht⟩ := h
  obtain ⟨_, m, _, hb⟩ := mem_bodies_removeUnits.mp hb
  exact .of_mem hb ht

/-- A nonterminal has the words of its unit closure. -/
theorem language_of_mem_unitClosure {g : Grammar} {name unit : String} {w : List Char}
    (hu : unit ∈ g.unitClosure name) (hw : g.productions.Language unit w) :
    g.productions.Language name w := by
  rw [mem_unitClosure_iff] at hu
  induction hu using Relation.ReflTransGen.head_induction_on with
  | refl => exact hw
  | head hstep _ ih =>
    exact Productions.language_of_spells (mem_units.mp hstep) (Spells.single_iff.mpr ih)

/-- Removing units keeps the words of all nonterminals. -/
theorem language_removeUnits_iff {g : Grammar} {name : String} {w : List Char} :
    g.removeUnits.productions.Language name w ↔ g.productions.Language name w := by
  constructor
  · intro h
    refine Productions.language_induction ?_ h
    intro m body hb v hv
    obtain ⟨_, k, hk, hb⟩ := mem_bodies_removeUnits.mp hb
    exact language_of_mem_unitClosure hk (Productions.language_of_spells hb hv)
  · intro h
    refine Productions.language_induction ?_ h
    intro m body hb v hv
    cases hunit : unit? body with
    | none =>
      refine Productions.language_of_spells (mem_bodies_removeUnits.mpr ⟨hunit, m, ?_, hb⟩) hv
      exact mem_unitClosure_iff.mpr .refl
    | some unit =>
      -- The words of the unit come from bodies of its closure, which are bodies of the head too.
      rw [unit?_eq_some_iff.mp hunit] at hb hv
      obtain ⟨next, hnext, hw⟩ := Productions.language_iff.mp (Spells.single_iff.mp hv)
      obtain ⟨hnone, k, hk, hkb⟩ := mem_bodies_removeUnits.mp hnext
      refine Productions.language_of_spells (mem_bodies_removeUnits.mpr ⟨hnone, k, ?_, hkb⟩) hw
      rw [mem_unitClosure_iff] at hk ⊢
      exact .head (mem_units.mpr hb) hk

/-- Removing units keeps the words of a grammar. -/
theorem generates_removeUnits_iff {g : Grammar} {w : List Char} :
    g.removeUnits.Generates w ↔ g.Generates w := by
  rw [generates_iff, generates_iff]
  exact language_removeUnits_iff

/-- Removing units keeps a grammar well formed. -/
theorem WellFormed.removeUnits {g : Grammar} (hg : g.WellFormed) : g.removeUnits.WellFormed := by
  obtain ⟨hstart, hclosed, hterminals⟩ := wellFormed_iff.mp hg
  refine wellFormed_iff.mpr ⟨?_, ?_, ?_⟩
  · change g.start ∈ g.removeUnits.nonterminals
    rw [nonterminals_removeUnits]
    exact hstart
  · intro name hu
    change name ∈ g.removeUnits.nonterminals
    rw [nonterminals_removeUnits]
    exact hclosed name (uses_of_uses_removeUnits hu)
  · intro c hu
    exact hterminals c (uses_of_uses_removeUnits hu)

/-- No body is a unit. -/
theorem single_notMem_bodies_removeUnits {g : Grammar} {name unit : String} :
    [.nonterminal unit] ∉ g.removeUnits.bodies name := by
  intro hb
  have hunit := (mem_bodies_removeUnits.mp hb).1
  rw [unit?_eq_some_iff.mpr rfl] at hunit
  cases hunit

/-- No body is a unit, the nonterminals are the same, and each derives the words that it derived
before. -/
theorem unitFree_and_derives_removeUnits (g : Grammar) :
    (∀ name unit, [.nonterminal unit] ∉ g.removeUnits.bodies name) ∧
      g.removeUnits.nonterminals = g.nonterminals ∧
      ∀ (name : String) (w : List Char),
        g.removeUnits.Derives [.nonterminal name] (w.map .terminal) ↔
          g.Derives [.nonterminal name] (w.map .terminal) := by
  refine ⟨fun _ _ ↦ single_notMem_bodies_removeUnits, nonterminals_removeUnits g, fun name w ↦ ?_⟩
  rw [derives_iff_language, derives_iff_language]
  exact language_removeUnits_iff

example : tangled.removeUnits.bodies "A" = [[.terminal 'a'], [.nonterminal "B", .terminal 'b'],
    [.nonterminal "S", .nonterminal "S"], []] := by cbv

end LanguageTheory.Grammar
