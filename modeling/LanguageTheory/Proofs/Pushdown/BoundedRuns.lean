import LanguageTheory.Proofs.Pushdown.Runs
import Mathlib.Data.List.Chain

/-!
# Runs within a height

A run is a list of configurations, each of which follows from the one before it by some transition.
Without a bound on their stacks there may be infinitely many configurations, for a transition that
reads nothing can make the stack higher again and again. Within a bound there are finitely many, so
that the search for an accepting run ends, and it misses no run within the bound.
-/

namespace LanguageTheory.Pushdown

variable {p : Pushdown} {height : Nat} {c d : Configuration}

/-! ### Runs as lists of configurations -/

/-- Whether a configuration follows from another one: a transition reads its character or nothing,
and the symbols that it takes off the top of the stack give way to those that it puts on. -/
def Follows (p : Pushdown) (c d : Configuration) : Prop :=
  ∃ t ∈ p.transitions, ∃ input rest, c = ⟨t.source, t.input.toList ++ input, t.pop ++ rest⟩ ∧
    d = ⟨t.target, input, t.push ++ rest⟩

/-- A configuration follows from another one when a transition leads to it. -/
theorem follows_iff : p.Follows c d ↔ ∃ t ∈ p.transitions, t.fire? c = some d :=
  exists_congr fun _ ↦ and_congr_right fun _ ↦ Transition.fire?_eq_some_iff.symm

/-- A run goes through a list of configurations. -/
theorem run_iff_isChain : p.Run height c d ↔ ∃ cs : List Configuration,
    (c :: cs).IsChain p.Follows ∧ (∀ e ∈ cs, e.stack.length ≤ height) ∧
      (c :: cs).getLast? = some d := by
  constructor
  · intro h
    induction h with
    | refl c => exact ⟨[], .singleton c, by simp, rfl⟩
    | @step c d e t ht hd hheight _ ih =>
      obtain ⟨cs, hchain, hcs, hlast⟩ := ih
      refine ⟨d :: cs, hchain.cons_cons (follows_iff.mpr ⟨t, ht, hd⟩), ?_, ?_⟩
      · exact List.forall_mem_cons.mpr ⟨hheight, hcs⟩
      · rwa [List.getLast?_cons_cons]
  · rintro ⟨cs, hchain, hcs, hlast⟩
    induction cs generalizing c with
    | nil =>
      cases hlast
      exact .refl _
    | cons e cs ih =>
      obtain ⟨hfollows, hchain⟩ := List.isChain_cons_cons.mp hchain
      obtain ⟨hheight, hcs⟩ := List.forall_mem_cons.mp hcs
      obtain ⟨t, ht, hd⟩ := follows_iff.mp hfollows
      rw [List.getLast?_cons_cons] at hlast
      exact .step ht hd hheight (ih hchain hcs hlast)

/-- A run accepts when the input is read and what the automaton asks for holds. -/
theorem isAccepting_iff : p.isAccepting c = true ↔ c.input = [] ∧
    (p.acceptance = .finalState ∧ c.state ∈ p.accepting ∨
      p.acceptance = .emptyStack ∧ c.stack = []) := by
  cases h : p.acceptance with
  | finalState => simp [isAccepting_iff_of_finalState h]
  | emptyStack => simp [isAccepting_iff_of_emptyStack h]

/-! ### The search -/

/-- Runs within a bound visit finitely many configurations. -/
theorem exists_forall_mem_of_run (p : Pushdown) (height : Nat) (w : List Char) :
    ∃ all : List Configuration, ∀ c, p.Run height (p.start w) c → c ∈ all := by
  obtain ⟨all, hstart, hall⟩ := p.bounded_successors height w
  refine ⟨all, fun c hrun ↦ ?_⟩
  rw [run_iff] at hrun
  induction hrun with
  | refl => exact hstart _ (List.mem_singleton_self _)
  | tail _ hsuccessor ih => exact hall _ ih _ hsuccessor

/-- Finitely many configurations are within reach, and the search for an accepting run finds out
whether one of the runs through them, with stacks that are not higher than the bound apart from the
first one, has read the word and accepts it. -/
theorem acceptsWithin_iff_isChain (p : Pushdown) (height : Nat) (w : List Char) :
    (∃ all : List Configuration, ∀ c, p.Run height (p.start w) c → c ∈ all) ∧
    (p.acceptsWithin height w = true ↔ ∃ cs : List Configuration,
      (⟨p.initial, w, [p.initialStack]⟩ :: cs).IsChain p.Follows ∧
      (∀ c ∈ cs, c.stack.length ≤ height) ∧
      ∃ c, (⟨p.initial, w, [p.initialStack]⟩ :: cs).getLast? = some c ∧ c.input = [] ∧
        (p.acceptance = .finalState ∧ c.state ∈ p.accepting ∨
          p.acceptance = .emptyStack ∧ c.stack = [])) := by
  refine ⟨p.exists_forall_mem_of_run height w, acceptsWithin_iff.trans ?_⟩
  constructor
  · rintro ⟨c, hrun, hc⟩
    obtain ⟨cs, hchain, hcs, hlast⟩ := run_iff_isChain.mp hrun
    exact ⟨cs, hchain, hcs, c, hlast, isAccepting_iff.mp hc⟩
  · rintro ⟨cs, hchain, hcs, c, hlast, hc⟩
    exact ⟨c, run_iff_isChain.mpr ⟨cs, hchain, hcs, hlast⟩, isAccepting_iff.mpr hc⟩

/-- An automaton that can put `a` on its stack again and again without reading anything, and that
needs three of them there to read one. -/
def piling : Pushdown where
  labels := .ofList ["0", "1"]
  alphabet := .ofSet (.ofList ['a'])
  transitions := [⟨0, none, [], 0, [.terminal 'a']⟩,
    ⟨0, some 'a', [.terminal 'a', .terminal 'a', .terminal 'a'], 1, []⟩]
  initial := 0
  initialStack := .bottom
  accepting := .ofList [1]
  acceptance := .finalState

/-- The search ends although the stack could grow forever. -/
example : piling.acceptsWithin 3 ['a'] = false ∧ piling.acceptsWithin 4 ['a'] = true :=
  ⟨by cbv, by cbv⟩

end LanguageTheory.Pushdown
