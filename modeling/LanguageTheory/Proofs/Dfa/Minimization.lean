import LanguageTheory.Dfa.Minimization
import LanguageTheory.Proofs.Dfa.Canonical
import LanguageTheory.Proofs.Partition.Refinement

/-!
# Minimal automata

Refinement puts two states of a complete automaton into one block when they accept the same words.
Merging the blocks therefore gives an automaton whose states accept different words, and such an
automaton is determined by its language and its characters, up to the numbers of its states.
-/

namespace LanguageTheory.Dfa

variable {d e : Dfa} {i j k b : Nat} {c : Char} {p : Partition}

/-! ### The division of the states -/

/-- In a complete automaton the successors on the characters are the successors on their
numbers. -/
theorem WellFormed.next?_eq_delta (hd : d.WellFormed) (hcomplete : d.isComplete = true)
    (hi : i < d.numStates) (hc : d.alphabet.toList[k]? = some c) :
    d.next? i c = some (d.delta i k) := by
  obtain ⟨s, hs⟩ := exists_state?_iff.mpr hi
  obtain ⟨j, hj⟩ := hd.isComplete_iff.mp hcomplete i hi c (List.mem_of_getElem? hc)
  have hnext := next?_of_getElem? hc hs
  rw [hj] at hnext
  rw [hj, delta, hs, Option.bind_some, ← hnext, Option.getD_some]

section Refinement

variable (hd : d.WellFormed) (hcomplete : d.isComplete = true)

include hd hcomplete

/-- The successors on the numbers of the characters are states. -/
theorem WellFormed.delta_lt (hi : i < d.numStates) (hk : k < d.alphabet.size) :
    d.delta i k < d.numStates :=
  hd.lt_of_next? (hd.next?_eq_delta hcomplete hi (List.getElem?_eq_getElem hk))

/-- States of one block are final alike and have successors in one block. -/
theorem WellFormed.bisimulation_refinement :
    Bisimulation d.refinement.partition.SameBlock d d := by
  have hstart := Refinement.wellFormed_start d.numStates d.alphabet.size d.isFinal
  have hsame {i j : Nat} (hij : d.refinement.partition.SameBlock i j) :=
    Refinement.sameBlock_start_iff.mp (Refinement.sameBlock_of_run hstart hij)
  constructor
  · intro i j hij
    exact (hsame hij).2.2
  · intro i j hij c
    obtain ⟨hi, hj, _⟩ := hsame hij
    by_cases hc : c ∈ d.alphabet
    · obtain ⟨k, hk⟩ := List.mem_iff_getElem?.mp (Alphabet.mem_toList.mpr hc)
      have hlt : k < d.alphabet.size := (List.getElem?_eq_some_iff.mp hk).1
      rw [hd.next?_eq_delta hcomplete hi hk, hd.next?_eq_delta hcomplete hj hk]
      exact .some (Refinement.sameBlock_successors_of_run hstart
        (fun _ hs _ hc ↦ hd.delta_lt hcomplete hs hc) hij hlt)
    · rw [next?_of_notMem hc, next?_of_notMem hc]
      exact .none

/-- Two states are in one block when they accept the same words. -/
theorem WellFormed.sameBlock_refinement_iff : d.refinement.partition.SameBlock i j ↔
    i < d.numStates ∧ j < d.numStates ∧ ∀ w, d.acceptsFrom i w = d.acceptsFrom j w := by
  have hstart := Refinement.wellFormed_start d.numStates d.alphabet.size d.isFinal
  constructor
  · intro hij
    obtain ⟨hi, hj, _⟩ :=
      Refinement.sameBlock_start_iff.mp (Refinement.sameBlock_of_run hstart hij)
    exact ⟨hi, hj, (hd.bisimulation_refinement hcomplete).acceptsFrom_eq hij⟩
  · -- States that accept the same words are final alike, and so are their successors.
    apply Refinement.sameBlock_run_of_respected hstart
      (E := fun i j ↦ i < d.numStates ∧ j < d.numStates ∧
        ∀ w, d.acceptsFrom i w = d.acceptsFrom j w)
    · rintro s t ⟨hs, ht, hwords⟩
      exact Refinement.sameBlock_start_iff.mpr ⟨hs, ht, hwords []⟩
    · rintro s t ⟨hs, ht, hwords⟩ k hk
      refine ⟨hd.delta_lt hcomplete hs hk, hd.delta_lt hcomplete ht hk, fun w ↦ ?_⟩
      obtain ⟨c, hc⟩ : ∃ c, d.alphabet.toList[k]? = some c := ⟨_, List.getElem?_eq_getElem hk⟩
      have hword := hwords (c :: w)
      rw [acceptsFrom_cons, acceptsFrom_cons, hd.next?_eq_delta hcomplete hs hc,
        hd.next?_eq_delta hcomplete ht hc] at hword
      exact hword

end Refinement

/-! ### Merged states -/

/-- A merged automaton has a state for each block. -/
@[simp]
theorem numStates_quotient (d : Dfa) (p : Partition) :
    (d.quotient p).numStates = p.numBlocks := Array.size_map

/-- A merged automaton has the same characters. -/
@[simp]
theorem alphabet_quotient (d : Dfa) (p : Partition) : (d.quotient p).alphabet = d.alphabet := rfl

section Quotient

variable (hd : d.WellFormed) (hp : p.WellFormed d.numStates)

include hp

omit hp in
/-- The state of a block is its first state, with the blocks of its successors. -/
theorem state?_quotient {s : State} (hfirst : p.first? b = some i) (hs : d.state? i = some s) :
    (d.quotient p).state? b = some { s with next := s.next.map fun t ↦ t.bind p.blockOf? } := by
  obtain ⟨block, hblock, hi⟩ := Option.bind_eq_some_iff.mp hfirst
  rw [state?, quotient, Array.getElem?_map, show p.blocks[b]? = some block from hblock]
  simp only [Option.map_some, hi, Option.bind_some, hs, Option.getD_some]

/-- The state of a block is one of its states, with the blocks of the successors. -/
theorem exists_state?_quotient (hb : b < p.numBlocks) :
    ∃ i s, p.blockOf? i = some b ∧ d.state? i = some s ∧ (d.quotient p).state? b =
      some { s with next := s.next.map fun t ↦ t.bind p.blockOf? } := by
  obtain ⟨i, hfirst, hrecord⟩ := hp.exists_first? hb
  obtain ⟨s, hs⟩ := exists_state?_iff.mpr (hp.exists_blockOf?_iff.mp ⟨b, hrecord⟩)
  exact ⟨i, s, hrecord, hs, state?_quotient hfirst hs⟩

include hd

/-- The merged automaton behaves like a state of each block, if the states of a block are final
alike and have successors in one block. -/
theorem bisimulation_quotient (hR : Bisimulation p.SameBlock d d) :
    Bisimulation (fun i b ↦ p.blockOf? i = some b) d (d.quotient p) := by
  have hfirst {i b : Nat} (hi : p.blockOf? i = some b) : ∃ j, p.SameBlock i j ∧
      (d.quotient p).isFinal b = d.isFinal j ∧
      ∀ c, (d.quotient p).next? b c = (d.next? j c).bind p.blockOf? := by
    obtain ⟨j, s, hj, hs, hq⟩ := exists_state?_quotient hp (hp.lt_numBlocks hi)
    refine ⟨j, hp.sameBlock_iff.mpr ⟨b, hi, hj⟩, ?_, fun c ↦ ?_⟩
    · rw [isFinal_of_state? hq, isFinal_of_state? hs]
    · by_cases hc : c ∈ d.alphabet
      · exact hd.next?_of_next_map (alphabet_quotient d p) hs hq rfl hc
      · rw [next?_of_notMem hc, next?_of_notMem (d := d.quotient p) hc]
        rfl
  constructor
  · intro i b hi
    obtain ⟨j, hij, hfinal, _⟩ := hfirst hi
    rw [hfinal, hR.isFinal_eq i j hij]
  · intro i b hi c
    obtain ⟨j, hij, _, hnext⟩ := hfirst hi
    have hrel := hR.next i j hij c
    rw [hnext]
    generalize d.next? i c = s at hrel ⊢
    generalize d.next? j c = t at hrel ⊢
    cases hrel with
    | none => exact .none
    | some hst =>
      obtain ⟨b', hs, ht⟩ := hp.sameBlock_iff.mp hst
      rw [Option.bind_some, ht]
      exact .some hs

/-- The initial state of the merged automaton is the block of the initial state. -/
theorem blockOf?_initial_quotient :
    p.blockOf? d.initial = some (d.quotient p).initial := by
  obtain ⟨b, hb⟩ := hp.exists_blockOf?_iff.mpr hd.initial_lt
  rw [quotient, hb]
  rfl

/-- Merging states keeps an automaton well formed. -/
theorem WellFormed.quotient : (d.quotient p).WellFormed := by
  have hlt {i b : Nat} (hb : p.blockOf? i = some b) : b < (d.quotient p).numStates := by
    rw [numStates_quotient]
    exact hp.lt_numBlocks hb
  refine hd.of_next_map rfl (hlt (blockOf?_initial_quotient hd hp)) fun b t ht ↦ ?_
  have hb := exists_state?_iff.mp ⟨t, ht⟩
  rw [numStates_quotient] at hb
  obtain ⟨i, s, _, hs, hq⟩ := exists_state?_quotient hp hb
  cases ht.symm.trans hq
  refine ⟨i, s, _, hs, rfl, fun c k hk ↦ ?_⟩
  obtain ⟨j, _, hk⟩ := Option.bind_eq_some_iff.mp hk
  exact hlt hk

end Quotient

/-! ### Minimal automata -/

/-- What makes a complete automaton minimal: words lead to all its states, and its states accept
different words. -/
structure IsMinimal (d : Dfa) : Prop where
  wellFormed : d.WellFormed
  isComplete : d.isComplete = true
  isAccessible : d.IsAccessible
  eq_of_acceptsFrom_eq : ∀ i < d.numStates, ∀ j < d.numStates,
    (∀ w, d.acceptsFrom i w = d.acceptsFrom j w) → i = j

/-- Merging the states that accept the same words leaves states that accept different words. -/
theorem WellFormed.isMinimal_quotient (hd : d.WellFormed) (hcomplete : d.isComplete = true)
    (haccessible : d.IsAccessible) : (d.quotient d.refinement.partition).IsMinimal := by
  have hp : d.refinement.partition.WellFormed d.numStates :=
    Refinement.wellFormed_run (Refinement.wellFormed_start _ _ _)
  have hR := hd.bisimulation_refinement hcomplete
  have hquotient := bisimulation_quotient hd hp hR
  have honto {b : Nat} (hb : b < (d.quotient d.refinement.partition).numStates) :
      ∃ i < d.numStates, d.refinement.partition.blockOf? i = some b := by
    rw [numStates_quotient] at hb
    obtain ⟨i, hi⟩ := hp.exists_blockOf?_eq hb
    exact ⟨i, hp.exists_blockOf?_iff.mp ⟨b, hi⟩, hi⟩
  constructor
  · exact hd.quotient hp
  · exact hquotient.isComplete hd (hd.quotient hp) (fun _ hc ↦ hc) (fun _ hb ↦ honto hb) hcomplete
  · intro b hb
    obtain ⟨i, hi, hib⟩ := honto hb
    obtain ⟨w, hw⟩ := haccessible i hi
    have hright : Relator.RightUnique fun i b ↦ d.refinement.partition.blockOf? i = some b :=
      fun _ _ _ hb hb' ↦ Option.some.inj (hb.symm.trans hb')
    exact ⟨w, hquotient.run_eq_some hright (blockOf?_initial_quotient hd hp) hib hw⟩
  · intro b hb b' hb' hwords
    obtain ⟨i, hi, hib⟩ := honto hb
    obtain ⟨i', hi', hib'⟩ := honto hb'
    have hsame : d.refinement.partition.SameBlock i i' := by
      refine (hd.sameBlock_refinement_iff hcomplete).mpr ⟨hi, hi', fun w ↦ ?_⟩
      rw [hquotient.acceptsFrom_eq hib, hquotient.acceptsFrom_eq hib', hwords]
    rw [hp.sameBlock_iff_of_lt hi, hib, hib'] at hsame
    exact Option.some.inj hsame

/-- Merging the states that accept the same words keeps the words. -/
theorem WellFormed.accepts_quotient (hd : d.WellFormed) (hcomplete : d.isComplete = true)
    (w : List Char) : (d.quotient d.refinement.partition).accepts w = d.accepts w := by
  have hp : d.refinement.partition.WellFormed d.numStates :=
    Refinement.wellFormed_run (Refinement.wellFormed_start _ _ _)
  have hquotient := bisimulation_quotient hd hp (hd.bisimulation_refinement hcomplete)
  exact (hquotient.accepts_eq (blockOf?_initial_quotient hd hp) w).symm

/-- A minimal automaton stays minimal over its sorted alphabet. -/
theorem IsMinimal.overSorted (h : d.IsMinimal) : d.overSorted.IsMinimal := by
  refine ⟨h.wellFormed.withAlphabet _, h.wellFormed.isComplete_overSorted h.isComplete, ?_, ?_⟩
  · intro i hi
    rw [Dfa.overSorted, numStates_withAlphabet] at hi
    obtain ⟨w, hw⟩ := h.isAccessible i hi
    exact ⟨w, (run_withAlphabet d.mem_sorted_of_mem _ w).trans hw⟩
  · intro i hi j hj hwords
    rw [Dfa.overSorted, numStates_withAlphabet] at hi hj
    apply h.eq_of_acceptsFrom_eq i hi j hj
    intro w
    have hword := hwords w
    rwa [Dfa.overSorted, acceptsFrom_withAlphabet d.mem_sorted_of_mem,
      acceptsFrom_withAlphabet d.mem_sorted_of_mem] at hword

/-- A minimal automaton stays minimal when its states are numbered anew. -/
theorem IsMinimal.restrict (h : d.IsMinimal) {keep : List Nat} (hkeep : d.Kept keep)
    (relabel : Nat → String → String) : (d.restrict keep relabel).IsMinimal := by
  have hd := h.wellFormed
  refine ⟨hkeep.wellFormed_restrict hd, hkeep.isComplete_restrict hd h.isComplete,
    hkeep.isAccessible_restrict hd fun i hi ↦ h.isAccessible i (hkeep.lt i hi), ?_⟩
  intro k hk k' hk' hwords
  obtain ⟨i, hi, hik⟩ := exists_kept_of_lt hk
  obtain ⟨i', hi', hik'⟩ := exists_kept_of_lt hk'
  have hbisim : Bisimulation (fun i k ↦ keep[k]? = some i) d (d.restrict keep relabel) :=
    hkeep.bisimulation_restrict hd
  obtain rfl : i = i' := by
    apply h.eq_of_acceptsFrom_eq i (hkeep.lt i hi) i' (hkeep.lt i' hi')
    intro w
    rw [hbisim.acceptsFrom_eq hik, hbisim.acceptsFrom_eq hik', hwords]
  exact rightUnique_getElem? hkeep.nodup hik hik'

/-- A minimal automaton stays minimal when it is numbered canonically. -/
theorem IsMinimal.canonize (h : d.IsMinimal) : d.canonize.IsMinimal := by
  rw [Dfa.canonize_eq]
  exact h.overSorted.restrict h.overSorted.wellFormed.kept_reachable _

/-! ### States that share a word -/

/-- Some word leads to both states, each in its automaton. -/
def Meet (d e : Dfa) (i j : Nat) : Prop :=
  ∃ w, d.run d.initial w = some i ∧ e.run e.initial w = some j

/-- States that share a word accept the same words if the automata do. -/
theorem Meet.acceptsFrom_eq (h : Meet d e i j) (hwords : ∀ w, d.accepts w = e.accepts w)
    (w : List Char) : d.acceptsFrom i w = e.acceptsFrom j w := by
  obtain ⟨u, hi, hj⟩ := h
  have hword := hwords (u ++ w)
  rwa [accepts_eq_acceptsFrom, accepts_eq_acceptsFrom, acceptsFrom_append hi,
    acceptsFrom_append hj] at hword

/-- The initial states share the empty word. -/
theorem meet_initial (d e : Dfa) : Meet d e d.initial e.initial := ⟨[], rfl, rfl⟩

/-- In complete automata for the same words, states that share a word behave alike. -/
theorem bisimulation_meet (hd : d.WellFormed) (he : e.WellFormed) (hdc : d.isComplete = true)
    (hec : e.isComplete = true) (halphabet : ∀ c, c ∈ d.alphabet ↔ c ∈ e.alphabet)
    (hwords : ∀ w, d.accepts w = e.accepts w) : Bisimulation (Meet d e) d e := by
  constructor
  · intro i j hij
    exact hij.acceptsFrom_eq hwords []
  · rintro i j ⟨w, hi, hj⟩ c
    by_cases hc : c ∈ d.alphabet
    · obtain ⟨i', hi'⟩ := hd.isComplete_iff.mp hdc i (hd.lt_of_run hd.initial_lt hi) c hc
      obtain ⟨j', hj'⟩ := he.isComplete_iff.mp hec j (he.lt_of_run he.initial_lt hj) c
        ((halphabet c).mp hc)
      rw [hi', hj']
      exact .some ⟨w ++ [c], run_concat hi hi', run_concat hj hj'⟩
    · rw [next?_of_notMem hc, next?_of_notMem fun h ↦ hc ((halphabet c).mpr h)]
      exact .none

/-- In a minimal automaton, one state at most shares words with a state of an automaton for the
same words. -/
theorem IsMinimal.leftUnique_meet (h : d.IsMinimal) (hwords : ∀ w, d.accepts w = e.accepts w) :
    Relator.LeftUnique (Meet d e) := by
  intro i i' j hij hij'
  have hlt {k : Nat} (hk : Meet d e k j) : k < d.numStates := by
    obtain ⟨w, hw, _⟩ := hk
    exact h.wellFormed.lt_of_run h.wellFormed.initial_lt hw
  apply h.eq_of_acceptsFrom_eq i (hlt hij) i' (hlt hij')
  intro w
  rw [hij.acceptsFrom_eq hwords, hij'.acceptsFrom_eq hwords]

/-- In minimal automata for the same words, at most one state shares words with a state of the
other. -/
theorem IsMinimal.biUnique_meet (h : d.IsMinimal) (h' : e.IsMinimal)
    (hwords : ∀ w, d.accepts w = e.accepts w) : Relator.BiUnique (Meet d e) := by
  refine ⟨h.leftUnique_meet hwords, fun i j j' hij hij' ↦ ?_⟩
  have hswap {k : Nat} (hk : Meet d e i k) : Meet e d k i :=
    hk.imp fun _ ↦ And.symm
  exact h'.leftUnique_meet (fun w ↦ (hwords w).symm) (hswap hij) (hswap hij')

/-- No complete automaton for the same words has fewer states than a minimal one. -/
theorem IsMinimal.numStates_le (h : d.IsMinimal) (he : e.WellFormed) (hec : e.isComplete = true)
    (halphabet : ∀ c ∈ d.alphabet, c ∈ e.alphabet) (hwords : ∀ w, d.accepts w = e.accepts w) :
    d.numStates ≤ e.numStates := by
  have hmeet (i : Fin d.numStates) : ∃ j : Fin e.numStates, Meet d e i j := by
    obtain ⟨w, hw⟩ := h.isAccessible i i.isLt
    obtain ⟨j, hj⟩ := he.exists_run hec he.initial_lt fun c hc ↦
      halphabet c (mem_alphabet_of_run hw c hc)
    exact ⟨⟨j, he.lt_of_run he.initial_lt hj⟩, w, hw, hj⟩
  choose f hf using hmeet
  have hinjective : Function.Injective f := by
    intro i i' hii
    have hi' := hf i'
    rw [← hii] at hi'
    exact Fin.ext (h.leftUnique_meet hwords (hf i) hi')
  have hcard := Fintype.card_le_of_injective f hinjective
  rwa [Fintype.card_fin, Fintype.card_fin] at hcard

/-- Minimal automata over the same characters for the same words have the same canonical
automaton. -/
theorem IsMinimal.canonize_eq (h : d.IsMinimal) (h' : e.IsMinimal)
    (halphabet : ∀ c, c ∈ d.alphabet ↔ c ∈ e.alphabet) (hwords : ∀ w, d.accepts w = e.accepts w) :
    d.canonize = e.canonize :=
  (bisimulation_meet h.wellFormed h'.wellFormed h.isComplete h'.isComplete halphabet
    hwords).canonize_eq h.wellFormed h'.wellFormed (h.biUnique_meet h' hwords) halphabet
    (meet_initial d e)

/-! ### Minimization -/

/-- The complete automaton of the reachable states over the sorted alphabet. -/
def total (d : Dfa) : Dfa := d.overSorted.complete.removeUnreachable

/-- The complete automaton with the states merged that accept the same words. -/
def merged (d : Dfa) : Dfa := d.total.quotient d.total.refinement.partition

/-- Minimization numbers the merged states canonically. -/
theorem minimize_eq (d : Dfa) : d.minimize = d.merged.canonize := rfl

/-- Merging keeps the characters. -/
theorem alphabet_merged (d : Dfa) : d.merged.alphabet = d.alphabet.sorted := by
  rw [merged, alphabet_quotient, total, removeUnreachable, alphabet_restrict, alphabet_complete]
  rfl

/-- The minimal automaton has the characters of the automaton, sorted. -/
@[simp]
theorem alphabet_minimize (d : Dfa) : d.minimize.alphabet = d.alphabet.sorted := by
  rw [minimize_eq, alphabet_canonize, alphabet_merged]
  exact Alphabet.sorted_congr fun _ ↦ Alphabet.mem_sorted

namespace WellFormed

variable (hd : d.WellFormed)

include hd

/-- The complete automaton of the reachable states is well formed. -/
theorem total : d.total.WellFormed := hd.overSorted.complete.removeUnreachable

/-- The complete automaton of the reachable states is complete. -/
theorem isComplete_total : d.total.isComplete = true :=
  hd.overSorted.complete.isComplete_removeUnreachable hd.overSorted.isComplete_complete

/-- There is at most one more state when the automaton is complete. -/
theorem numStates_total_le : d.total.numStates ≤ d.numStates + 1 := by
  have hle := hd.overSorted.complete.numStates_removeUnreachable_le.trans
    (numStates_complete_le d.overSorted)
  rwa [Dfa.overSorted, numStates_withAlphabet] at hle

/-- The merged automaton is minimal. -/
theorem isMinimal_merged : d.merged.IsMinimal :=
  hd.total.isMinimal_quotient hd.isComplete_total
    hd.overSorted.complete.isAccessible_removeUnreachable

/-- The merged automaton accepts the same words. -/
theorem accepts_merged (w : List Char) : d.merged.accepts w = d.accepts w := by
  rw [merged, hd.total.accepts_quotient hd.isComplete_total, Dfa.total,
    hd.overSorted.complete.accepts_removeUnreachable, hd.overSorted.accepts_complete,
    accepts_overSorted]

/-- The minimal automaton is minimal. -/
theorem isMinimal_minimize : d.minimize.IsMinimal := hd.isMinimal_merged.canonize

/-- The minimal automaton accepts the same words. -/
theorem accepts_minimize (w : List Char) : d.minimize.accepts w = d.accepts w := by
  rw [minimize_eq, hd.isMinimal_merged.wellFormed.accepts_canonize, hd.accepts_merged]

/-- Automata with the same minimal automaton accept the same words. -/
theorem accepts_eq_of_minimize_eq (he : e.WellFormed) (h : d.minimize = e.minimize)
    (w : List Char) : d.accepts w = e.accepts w := by
  rw [← hd.accepts_minimize, h, he.accepts_minimize]

/-- Automata over the same characters that accept the same words have the same minimal automaton. -/
theorem minimize_eq_of_accepts_eq (he : e.WellFormed)
    (halphabet : ∀ c, c ∈ d.alphabet ↔ c ∈ e.alphabet) (hwords : ∀ w, d.accepts w = e.accepts w) :
    d.minimize = e.minimize := by
  rw [minimize_eq, minimize_eq]
  apply hd.isMinimal_merged.canonize_eq he.isMinimal_merged
  · intro c
    rw [alphabet_merged, alphabet_merged, Alphabet.mem_sorted, Alphabet.mem_sorted, halphabet]
  · intro w
    rw [hd.accepts_merged, he.accepts_merged, hwords]

end WellFormed

/-- Minimal automata that are equivalent as descriptions are equal: their alphabets are sorted. -/
theorem minimize_equiv_iff : d.minimize ≈ e.minimize ↔ d.minimize = e.minimize :=
  canonize_equiv_iff

/-- The minimal automaton is complete and accepts the same words over the same characters, and no
complete automaton over these characters that accepts these words has fewer states. -/
theorem minimize_least (hd : d.WellFormed) :
    d.minimize.WellFormed ∧ d.minimize.isComplete = true ∧
      (∀ c, c ∈ d.minimize.alphabet ↔ c ∈ d.alphabet) ∧
      (∀ w, d.minimize.accepts w = d.accepts w) ∧
      ∀ e : Dfa, e.WellFormed → e.isComplete = true → (∀ c, c ∈ e.alphabet ↔ c ∈ d.alphabet) →
        (∀ w, e.accepts w = d.accepts w) → d.minimize.numStates ≤ e.numStates := by
  have hminimal := hd.isMinimal_minimize
  refine ⟨hminimal.wellFormed, hminimal.isComplete, fun c ↦ ?_, hd.accepts_minimize,
    fun e he hec halphabet hwords ↦ hminimal.numStates_le he hec (fun c hc ↦ ?_) fun w ↦ ?_⟩
  · rw [alphabet_minimize, Alphabet.mem_sorted]
  · rw [alphabet_minimize, Alphabet.mem_sorted] at hc
    exact (halphabet c).mpr hc
  · rw [hd.accepts_minimize, hwords]

/-- The minimal automaton of a partial automaton with unreachable and duplicate states. -/
theorem minimize_least_aThenBs :
    aThenBs.WellFormed ∧ aThenBs.minimize.WellFormed ∧ aThenBs.minimize.isComplete = true ∧
      (∀ c, c ∈ aThenBs.minimize.alphabet ↔ c ∈ aThenBs.alphabet) ∧
      (∀ w, aThenBs.minimize.accepts w = aThenBs.accepts w) ∧
      ∀ e : Dfa, e.WellFormed → e.isComplete = true →
        (∀ c, c ∈ e.alphabet ↔ c ∈ aThenBs.alphabet) →
        (∀ w, e.accepts w = aThenBs.accepts w) → aThenBs.minimize.numStates ≤ e.numStates :=
  ⟨by decide, minimize_least (by decide)⟩

/-- Two automata have the same minimal automaton, to the last number and label, exactly when they
have the same characters and accept the same words. -/
theorem minimize_eq_iff (hd : d.WellFormed) (he : e.WellFormed) :
    (d.minimize ≈ e.minimize ↔ d.minimize = e.minimize) ∧
      (d.minimize = e.minimize ↔
        (∀ c, c ∈ d.alphabet ↔ c ∈ e.alphabet) ∧ ∀ w, d.accepts w = e.accepts w) := by
  refine ⟨minimize_equiv_iff, fun h ↦ ⟨fun c ↦ ?_, ?_⟩, fun ⟨halphabet, hwords⟩ ↦ ?_⟩
  · rw [← Alphabet.mem_sorted, ← alphabet_minimize, h, alphabet_minimize, Alphabet.mem_sorted]
  · exact hd.accepts_eq_of_minimize_eq he h
  · exact hd.minimize_eq_of_accepts_eq he halphabet hwords

/-- A partial and a complete automaton with different numbers and orders of the characters. -/
theorem minimize_eq_iff_aThenBs :
    aThenBs.WellFormed ∧ aThenBsComplete.WellFormed ∧
      (aThenBs.minimize ≈ aThenBsComplete.minimize ↔
        aThenBs.minimize = aThenBsComplete.minimize) ∧
      (aThenBs.minimize = aThenBsComplete.minimize ↔
        (∀ c, c ∈ aThenBs.alphabet ↔ c ∈ aThenBsComplete.alphabet) ∧
          ∀ w, aThenBs.accepts w = aThenBsComplete.accepts w) :=
  ⟨by decide, by decide, minimize_eq_iff (by decide) (by decide)⟩

example : aThenBs.minimize = aThenBsComplete.minimize := by cbv

end LanguageTheory.Dfa
