import LanguageTheory.Pushdown.Basic
import LanguageTheory.Proofs.Search.Reachability

/-!
# Runs of pushdown automata

A transition reads a beginning of the input and replaces a beginning of the stack. The search for an
accepting run finds one exactly when there is one with stacks that are not higher than the bound.
-/

namespace LanguageTheory.Pushdown

/-! ### Transitions -/

/-- A transition reads its character off the input, if it has one. -/
theorem Transition.readInput?_eq_some_iff {t : Transition} {input rest : List Char} :
    t.readInput? input = some rest ↔ input = t.input.toList ++ rest := by
  unfold readInput?
  cases t.input with
  | none => simp
  | some c =>
    cases input with
    | nil => simp
    | cons d input =>
      by_cases h : c = d
      · subst h
        simp
      · simp [h, Ne.symm h]

/-- A transition replaces a beginning of the input and a beginning of the stack. -/
theorem Transition.fire?_eq_some_iff {t : Transition} {c d : Configuration} :
    t.fire? c = some d ↔ ∃ input rest, c = ⟨t.source, t.input.toList ++ input, t.pop ++ rest⟩ ∧
      d = ⟨t.target, input, t.push ++ rest⟩ := by
  obtain ⟨state, word, stack⟩ := c
  unfold fire?
  constructor
  · intro h
    split at h
    · next hs =>
      obtain ⟨input, hi, h⟩ := Option.bind_eq_some_iff.mp h
      obtain ⟨rest, hr, rfl⟩ := Option.map_eq_some_iff.mp h
      refine ⟨input, rest, ?_, rfl⟩
      rw [Configuration.mk.injEq]
      exact ⟨hs.symm, readInput?_eq_some_iff.mp hi, pop?_eq_some_iff.mp hr⟩
    · cases h
  · rintro ⟨input, rest, hc, rfl⟩
    rw [Configuration.mk.injEq] at hc
    obtain ⟨rfl, hi, hr⟩ := hc
    rw [if_pos rfl, readInput?_eq_some_iff.mpr hi, Option.bind_some, pop?_eq_some_iff.mpr hr]
    rfl

variable {p : Pushdown} {height : Nat} {c d e : Configuration}

/-- The successors are what the transitions lead to within the bound. -/
theorem mem_successors_iff :
    d ∈ p.successors height c ↔
      ∃ t ∈ p.transitions, t.fire? c = some d ∧ d.stack.length ≤ height := by
  unfold successors
  rw [List.mem_filter, List.mem_filterMap, decide_eq_true_eq]
  constructor
  · rintro ⟨⟨t, ht, hd⟩, hheight⟩
    exact ⟨t, ht, hd, hheight⟩
  · rintro ⟨t, ht, hd, hheight⟩
    exact ⟨⟨t, ht, hd⟩, hheight⟩

/-! ### Runs -/

/-- Runs follow one another. -/
theorem Run.trans (h : p.Run height c d) (h' : p.Run height d e) : p.Run height c e := by
  induction h with
  | refl => exact h'
  | step ht hd hheight _ ih => exact .step ht hd hheight (ih h')

/-- Runs are chains of successors. -/
theorem run_iff :
    p.Run height c d ↔ Relation.ReflTransGen (fun a b ↦ b ∈ p.successors height a) c d := by
  constructor
  · intro h
    induction h with
    | refl => exact .refl
    | step ht hd hheight _ ih => exact .head (mem_successors_iff.mpr ⟨_, ht, hd, hheight⟩) ih
  · intro h
    induction h using Relation.ReflTransGen.head_induction_on with
    | refl => exact .refl _
    | head hab _ ih =>
      obtain ⟨t, ht, hd, hheight⟩ := mem_successors_iff.mp hab
      exact .step ht hd hheight ih

/-- The search finds an accepting run exactly when there is one within the bound. -/
theorem acceptsWithin_iff {w : List Char} :
    p.acceptsWithin height w = true ↔
      ∃ c, p.Run height (p.start w) c ∧ p.isAccepting c = true := by
  unfold acceptsWithin
  rw [Agenda.canReach_iff]
  constructor
  · rintro ⟨first, hfirst, c, hrun, hc⟩
    rw [List.mem_singleton.mp hfirst] at hrun
    exact ⟨c, run_iff.mpr hrun, hc⟩
  · rintro ⟨c, hrun, hc⟩
    exact ⟨p.start w, List.mem_singleton.mpr rfl, c, run_iff.mp hrun, hc⟩

/-- By empty stack a run accepts when nothing is left. -/
theorem isAccepting_iff_of_emptyStack (h : p.acceptance = .emptyStack) :
    p.isAccepting c = true ↔ c.input = [] ∧ c.stack = [] := by
  unfold isAccepting
  rw [h, Bool.and_eq_true, List.isEmpty_iff, List.isEmpty_iff]

/-- By final state a run accepts when the input is read and its state is final. -/
theorem isAccepting_iff_of_finalState (h : p.acceptance = .finalState) :
    p.isAccepting c = true ↔ c.input = [] ∧ c.state ∈ p.accepting := by
  unfold isAccepting
  rw [h, Bool.and_eq_true, List.isEmpty_iff, OrderedSet.contains_iff]

end LanguageTheory.Pushdown
