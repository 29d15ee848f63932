import LanguageTheory.Regex.Basic
import Mathlib.Computability.Language

/-!
# Languages of expressions

The language of an expression follows its structure: the empty word, one character, and union,
product and finite repetition of languages.
-/

namespace LanguageTheory.Regex

open Computability

/-- Language of an expression. -/
def language : Regex → Language Char
  | epsilon => 1
  | literal c => {[c]}
  | alternation r s => r.language + s.language
  | concatenation r s => r.language * s.language
  | star r => r.language∗

/-- Prefixing a word of a language to words of the language gives one. -/
theorem append_mem_kstar {l : Language Char} {u v : List Char} (hu : u ∈ l) (hv : v ∈ l∗) :
    u ++ v ∈ l∗ := by
  rw [← Language.one_add_self_mul_kstar_eq_kstar]
  exact Or.inr (Language.append_mem_mul hu hv)

/-- The words of an expression are those of its language. -/
theorem matches_iff {r : Regex} {w : List Char} : r.Matches w ↔ w ∈ r.language := by
  constructor
  · intro h
    induction h with
    | epsilon => exact Language.nil_mem_one
    | literal c => exact rfl
    | left _ ih => exact Or.inl ih
    | right _ ih => exact Or.inr ih
    | append _ _ ihr ihs => exact Language.append_mem_mul ihr ihs
    | done => exact Language.nil_mem_kstar _
    | again _ _ ih ihs => exact append_mem_kstar ih ihs
  · intro h
    induction r generalizing w with
    | epsilon =>
      obtain rfl := (Language.mem_one w).mp h
      exact .epsilon
    | literal c =>
      obtain rfl : w = [c] := h
      exact .literal c
    | alternation r s ihr ihs => exact h.elim (fun h ↦ .left (ihr h)) fun h ↦ .right (ihs h)
    | concatenation r s ihr ihs =>
      obtain ⟨u, hu, v, hv, rfl⟩ := Language.mem_mul.mp h
      exact .append (ihr hu) (ihs hv)
    | star r ih =>
      obtain ⟨parts, rfl, hparts⟩ := Language.mem_kstar.mp h
      clear h
      induction parts with
      | nil => exact .done
      | cons part parts ihp =>
        rw [List.forall_mem_cons] at hparts
        exact .again (ih hparts.1) (ihp hparts.2)

/-- The words of an expression have characters of its literals only. -/
theorem Matches.mem_literals {r : Regex} {w : List Char} (h : r.Matches w) :
    ∀ c ∈ w, c ∈ r.literals := by
  induction h with
  | epsilon => simp
  | literal c => simp [literals]
  | left _ ih => exact fun c hc ↦ List.mem_append_left _ (ih c hc)
  | right _ ih => exact fun c hc ↦ List.mem_append_right _ (ih c hc)
  | append _ _ ihr ihs =>
    exact fun c hc ↦ List.mem_append.mpr ((List.mem_append.mp hc).imp (ihr c) (ihs c))
  | done => simp
  | again _ _ ih ihs => exact fun c hc ↦ (List.mem_append.mp hc).elim (ih c) (ihs c)

/-- The words of an expression are words over its alphabet. -/
theorem mem_alphabet_of_mem_language {r : Regex} {w : List Char} (h : w ∈ r.language) :
    ∀ c ∈ w, c ∈ r.alphabet :=
  fun c hc ↦ OrderedSet.mem_ofList.mpr ((matches_iff.mpr h).mem_literals c hc)

end LanguageTheory.Regex
