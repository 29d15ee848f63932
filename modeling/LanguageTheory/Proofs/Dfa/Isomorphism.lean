import LanguageTheory.Proofs.Dfa.Canonical
import Mathlib.Data.Set.Function

/-!
# Automata that differ in their numbers only

Two automata differ in the numbers of their states only when a renaming takes the states to which
words of the one lead to those of the other. The canonical automaton tells automata apart up to a
renaming: the states that it meets first, second, and so on in both automata are renamed to each
other.
-/

namespace LanguageTheory.Dfa

variable {d e : Dfa} {i j : Nat} {R : Nat → Nat → Prop}

/-! ### Renamings -/

/-- The states to which words lead. -/
def Reached (d : Dfa) : Set Nat := {i | ∃ w, d.run d.initial w = some i}

/-- A successor of a reached state is reached. -/
theorem mem_reached_of_next? {c : Char} (hi : i ∈ d.Reached) (hj : d.next? i c = some j) :
    j ∈ d.Reached := by
  obtain ⟨w, hw⟩ := hi
  exact ⟨w ++ [c], run_concat hw hj⟩

/-- A bijection between the reached states of two automata that keeps the initial state, the final
states and the transitions, where there are any. -/
structure Renaming (f : Nat → Nat) (d e : Dfa) : Prop where
  bijOn : Set.BijOn f d.Reached e.Reached
  initial_eq : f d.initial = e.initial
  isFinal_eq : ∀ i ∈ d.Reached, e.isFinal (f i) = d.isFinal i
  next?_eq : ∀ i ∈ d.Reached, ∀ c, e.next? (f i) c = (d.next? i c).map f

/-- A renaming relates each reached state to one other state. -/
theorem Renaming.exists_bisimulation {f : Nat → Nat} (h : Renaming f d e) :
    ∃ R, Bisimulation R d e ∧ Relator.BiUnique R ∧ R d.initial e.initial := by
  refine ⟨fun i j ↦ i ∈ d.Reached ∧ f i = j, ⟨?_, ?_⟩, ⟨?_, ?_⟩, ⟨[], rfl⟩, h.initial_eq⟩
  · rintro i j ⟨hi, rfl⟩
    exact (h.isFinal_eq i hi).symm
  · rintro i j ⟨hi, rfl⟩ c
    rw [h.next?_eq i hi c]
    cases hk : d.next? i c with
    | none => exact .none
    | some k => exact .some ⟨mem_reached_of_next? hi hk, rfl⟩
  · rintro i j k ⟨hi, hik⟩ ⟨hj, hjk⟩
    exact h.bijOn.injOn hi hj (hik.trans hjk.symm)
  · rintro i j k ⟨_, hij⟩ ⟨_, hik⟩
    exact hij.symm.trans hik

namespace Bisimulation

/-- Related automata reach related states. -/
theorem exists_of_mem_reached (h : Bisimulation R d e) (hinitial : R d.initial e.initial)
    (hi : i ∈ d.Reached) : ∃ j ∈ e.Reached, R i j := by
  obtain ⟨w, hw⟩ := hi
  have hrun := h.run hinitial w
  rw [hw] at hrun
  obtain ⟨j, hj, hij⟩ := exists_of_rel_some hrun
  exact ⟨j, ⟨w, hj⟩, hij⟩

/-- A relation of each state to one other state renames the reached states. -/
theorem exists_renaming (h : Bisimulation R d e) (hunique : Relator.BiUnique R)
    (hinitial : R d.initial e.initial) : ∃ f, Renaming f d e := by
  have hchoice : ∀ i, ∃ j, i ∈ d.Reached → R i j := fun i ↦ by
    by_cases hi : i ∈ d.Reached
    · obtain ⟨j, _, hij⟩ := h.exists_of_mem_reached hinitial hi
      exact ⟨j, fun _ ↦ hij⟩
    · exact ⟨0, fun hmem ↦ absurd hmem hi⟩
  choose f hf using hchoice
  have hf_eq : ∀ {i j}, i ∈ d.Reached → R i j → f i = j := fun hi hij ↦ hunique.2 (hf _ hi) hij
  refine ⟨f, ⟨?_, ?_, ?_⟩, hf_eq ⟨[], rfl⟩ hinitial, ?_, ?_⟩
  · intro i hi
    obtain ⟨j, hj, hij⟩ := h.exists_of_mem_reached hinitial hi
    rwa [hf_eq hi hij]
  · intro i hi j hj hij
    exact hunique.1 (hf i hi) (hij ▸ hf j hj)
  · intro j hj
    obtain ⟨i, hi, hij⟩ := h.flip.exists_of_mem_reached hinitial hj
    exact ⟨i, hi, hf_eq hi hij⟩
  · intro i hi
    exact (h.isFinal_eq i _ (hf i hi)).symm
  · intro i hi c
    exact eq_map_of_rel (h.next i _ (hf i hi) c) fun j k hj ↦ hf_eq (mem_reached_of_next? hi hj)

end Bisimulation

/-! ### Canonical automata -/

/-- The states that the search meets are related to their places. -/
theorem WellFormed.bisimulation_canonize (hd : d.WellFormed) :
    Bisimulation (fun i k ↦ d.overSorted.reachable[k]? = some i) d d.canonize := by
  have h : Bisimulation (fun i k ↦ d.overSorted.reachable[k]? = some i) d.overSorted
      d.canonize := by
    rw [canonize_eq]
    exact hd.overSorted.kept_reachable.bisimulation_restrict hd.overSorted
  constructor
  · intro i k hk
    rw [← isFinal_withAlphabet d d.alphabet.sorted]
    exact h.isFinal_eq i k hk
  · intro i k hk c
    rw [← next?_withAlphabet_of_subset d.mem_sorted_of_mem]
    exact h.next i k hk c

/-- The initial state is related to its place. -/
theorem WellFormed.getElem?_initial_canonize (hd : d.WellFormed) :
    d.overSorted.reachable[d.canonize.initial]? = some d.initial :=
  hd.overSorted.kept_reachable.getElem?_initial_restrict

/-- Elements in the same place of lists without repetitions belong to each other only. -/
theorem biUnique_getElem? {xs ys : List Nat} (hxs : xs.Nodup) (hys : ys.Nodup) :
    Relator.BiUnique fun i j ↦ ∃ k : Nat, xs[k]? = some i ∧ ys[k]? = some j := by
  constructor
  · rintro i j l ⟨k, hi, hl⟩ ⟨k', hj, hl'⟩
    rw [rightUnique_getElem? hys hl hl', hj] at hi
    exact (Option.some.inj hi).symm
  · rintro i j l ⟨k, hi, hj⟩ ⟨k', hi', hl⟩
    rw [rightUnique_getElem? hxs hi hi', hl] at hj
    exact (Option.some.inj hj).symm

/-- The states of automata with the same canonical automaton are renamed to each other. -/
theorem WellFormed.exists_renaming_of_canonize_eq (hd : d.WellFormed) (he : e.WellFormed)
    (h : d.canonize = e.canonize) : ∃ f, Renaming f d e := by
  have hplaces := hd.bisimulation_canonize
  have hinitial := hd.getElem?_initial_canonize
  rw [h] at hplaces hinitial
  exact (hplaces.join he.bisimulation_canonize).exists_renaming
    (biUnique_getElem? d.overSorted.nodup_reachable e.overSorted.nodup_reachable)
    ⟨_, hinitial, he.getElem?_initial_canonize⟩

/-- Two automata have the same canonical automaton, to the last number and label, exactly when they
have the same characters and a renaming takes the reached states of the one to those of the other;
and the canonical automaton accepts the same words. -/
theorem canonize_eq_iff (hd : d.WellFormed) (he : e.WellFormed) :
    (d.canonize ≈ e.canonize ↔ d.canonize = e.canonize) ∧
      (d.canonize = e.canonize ↔
        (∀ c, c ∈ d.alphabet ↔ c ∈ e.alphabet) ∧ ∃ f, Renaming f d e) ∧
      ∀ w, d.canonize.accepts w = d.accepts w := by
  refine ⟨canonize_equiv_iff, ⟨fun h ↦ ⟨fun c ↦ ?_, ?_⟩, fun ⟨halphabet, f, hf⟩ ↦ ?_⟩,
    hd.accepts_canonize⟩
  · rw [← Alphabet.mem_sorted, ← alphabet_canonize, h, alphabet_canonize, Alphabet.mem_sorted]
  · exact hd.exists_renaming_of_canonize_eq he h
  · obtain ⟨R, hR, hunique, hinitial⟩ := hf.exists_bisimulation
    exact hR.canonize_eq hd he hunique halphabet hinitial

/-- The automaton `aThenBs` with other numbers and another order of the characters, and without the
state to which no word leads. -/
def aThenBsShuffled : Dfa where
  alphabet := .ofSet (.ofList ['b', 'a'])
  states := #[⟨"odd", true, [some 2, none]⟩, ⟨"start", false, [none, some 2]⟩,
    ⟨"even", true, [some 0, none]⟩]
  initial := 1

/-- Two partial automata with different numbers and orders of the characters. -/
theorem canonize_eq_iff_aThenBs : aThenBs.WellFormed ∧ aThenBsShuffled.WellFormed ∧
    (aThenBs.canonize ≈ aThenBsShuffled.canonize ↔ aThenBs.canonize = aThenBsShuffled.canonize) ∧
    (aThenBs.canonize = aThenBsShuffled.canonize ↔
      (∀ c, c ∈ aThenBs.alphabet ↔ c ∈ aThenBsShuffled.alphabet) ∧
        ∃ f, Renaming f aThenBs aThenBsShuffled) ∧
    ∀ w, aThenBs.canonize.accepts w = aThenBs.accepts w :=
  ⟨by decide, by decide, canonize_eq_iff (by decide) (by decide)⟩

example : aThenBs.canonize = aThenBsShuffled.canonize := by cbv

end LanguageTheory.Dfa
