import LanguageTheory.Dfa.Reachability
import LanguageTheory.Proofs.Dfa.Completion
import LanguageTheory.Proofs.Dfa.Reachability
import LanguageTheory.Proofs.Search.Lockstep
import Std.Data.String.ToNat

/-!
# Canonical numbering forgets numbers and labels

When the states of two automata over the same characters correspond to each other, the searches of
both meet corresponding states in the same order, so that the canonical automata are the same one.
-/

namespace LanguageTheory.Dfa

variable {d e : Dfa} {i j : Nat} {w : List Char} {R : Nat → Nat → Prop}

/-! ### Corresponding states -/

/-- In lists of corresponding elements, corresponding elements have the same place. -/
theorem idxOf?_eq_of_forall₂ (hunique : Relator.BiUnique R) {xs ys : List Nat}
    (h : List.Forall₂ R xs ys) (hij : R i j) : xs.idxOf? i = ys.idxOf? j := by
  induction h with
  | nil => rfl
  | @cons a b xs ys hab _ ih =>
    have hiff : a = i ↔ b = j :=
      ⟨fun ha ↦ hunique.2 hab (ha ▸ hij), fun hb ↦ hunique.1 hab (hb ▸ hij)⟩
    rw [List.idxOf?_cons, List.idxOf?_cons, ih]
    simp only [beq_iff_eq, hiff]

/-- The searches of corresponding automata meet corresponding states in the same order. -/
theorem Bisimulation.forall₂_reachable (h : Bisimulation R d e) (hd : d.WellFormed)
    (he : e.WellFormed) (hunique : Relator.BiUnique R) (halphabet : d.alphabet = e.alphabet)
    (hinitial : R d.initial e.initial) : List.Forall₂ R d.reachable e.reachable := by
  refine Agenda.forall₂_visited_explore hunique (fun i j hij ↦ ?_) (.cons hinitial .nil) _ _
  rw [hd.successors_eq, he.successors_eq, halphabet]
  refine List.rel_filterMap ?_ (List.forall₂_same.mpr fun _ _ ↦ rfl : List.Forall₂ Eq _ _)
  rintro c _ rfl
  exact h.next i j hij c

/-- Restrictions to corresponding states in the same order are equal, if their labels are. -/
theorem Bisimulation.restrict_eq (h : Bisimulation R d e) (hd : d.WellFormed) (he : e.WellFormed)
    (hunique : Relator.BiUnique R) (halphabet : d.alphabet = e.alphabet)
    (hinitial : R d.initial e.initial) {keep keep' : List Nat} (hkeep : d.Kept keep)
    (hkeep' : e.Kept keep') (hall : List.Forall₂ R keep keep') (name : Nat → String) :
    d.restrict keep (fun k _ ↦ name k) = e.restrict keep' fun k _ ↦ name k := by
  have hplace (i j : Nat) (hij : R i j) : keep.idxOf? i = keep'.idxOf? j :=
    idxOf?_eq_of_forall₂ hunique hall hij
  have hstate (k : Nat) (hk : k < (d.restrict keep fun k _ ↦ name k).numStates) :
      ∃ i j, keep[k]? = some i ∧ keep'[k]? = some j ∧ R i j := by
    obtain ⟨hlength, hget⟩ := List.forall₂_iff_get.mp hall
    rw [numStates_restrict] at hk
    have hk' : k < keep'.length := hlength ▸ hk
    exact ⟨_, _, List.getElem?_eq_getElem hk, List.getElem?_eq_getElem hk', hget k hk hk'⟩
  apply (hkeep.wellFormed_restrict hd).ext (hkeep'.wellFormed_restrict he)
  · exact halphabet
  · rw [numStates_restrict, numStates_restrict, hall.length_eq]
  · rw [restrict, restrict, hplace _ _ hinitial]
  · intro k hk
    obtain ⟨i, j, hi, hj, _⟩ := hstate k hk
    rw [hkeep.label_restrict hi, hkeep'.label_restrict hj]
  · intro k hk
    obtain ⟨i, j, hi, hj, hij⟩ := hstate k hk
    rw [hkeep.isFinal_restrict hi, hkeep'.isFinal_restrict hj, h.isFinal_eq i j hij]
  · intro k hk c
    obtain ⟨i, j, hi, hj, hij⟩ := hstate k hk
    rw [hkeep.next?_restrict hd hi, hkeep'.next?_restrict he hj]
    exact bind_eq_of_rel (h.next i j hij c) hplace

/-! ### Canonical automata -/

/-- The automaton that reads its characters in increasing order. -/
def overSorted (d : Dfa) : Dfa := d.withAlphabet d.alphabet.sorted

/-- The canonical automaton has the states that the search over the sorted alphabet meets. -/
theorem canonize_eq (d : Dfa) : d.canonize = d.overSorted.restrict d.overSorted.reachable
    fun k _ ↦ canonicalLabel d.overSorted.reachable.length k := rfl

/-- The characters of a canonical automaton are sorted. -/
@[simp]
theorem alphabet_canonize (d : Dfa) : d.canonize.alphabet = d.alphabet.sorted := rfl

/-- The sorted alphabet has all characters. -/
theorem mem_sorted_of_mem (d : Dfa) : ∀ c ∈ d.alphabet, c ∈ d.alphabet.sorted :=
  fun _ hc ↦ Alphabet.mem_sorted.mpr hc

/-- An automaton accepts the same words over its sorted alphabet. -/
theorem accepts_overSorted (d : Dfa) (w : List Char) : d.overSorted.accepts w = d.accepts w :=
  accepts_withAlphabet d.mem_sorted_of_mem w

/-- An automaton stays well formed over its sorted alphabet. -/
theorem WellFormed.overSorted (hd : d.WellFormed) : d.overSorted.WellFormed := hd.withAlphabet _

/-- An automaton stays complete over its sorted alphabet. -/
theorem WellFormed.isComplete_overSorted (hd : d.WellFormed) (hcomplete : d.isComplete = true) :
    d.overSorted.isComplete = true := by
  rw [hd.overSorted.isComplete_iff]
  intro i hi c hc
  rw [Dfa.overSorted, numStates_withAlphabet] at hi
  rw [Dfa.overSorted, next?_withAlphabet_of_subset d.mem_sorted_of_mem]
  exact hd.isComplete_iff.mp hcomplete i hi c (Alphabet.mem_sorted.mp hc)

/-- Canonical renaming keeps an automaton well formed. -/
theorem WellFormed.canonize (hd : d.WellFormed) : d.canonize.WellFormed := by
  rw [canonize_eq]
  exact hd.overSorted.kept_reachable.wellFormed_restrict hd.overSorted

/-- The canonical automaton accepts the same words. -/
theorem WellFormed.accepts_canonize (hd : d.WellFormed) (w : List Char) :
    d.canonize.accepts w = d.accepts w := by
  rw [Dfa.canonize_eq, hd.overSorted.kept_reachable.accepts_restrict hd.overSorted,
    accepts_overSorted]

/-- Different numbers have different canonical labels. -/
theorem eq_of_canonicalLabel_eq {n : Nat} (hi : i < n) (hj : j < n)
    (h : canonicalLabel n i = canonicalLabel n j) : i = j := by
  unfold canonicalLabel at h
  split at h
  · next hn =>
    have hcode {k : Nat} (hk : k < n) : (Char.ofNat ('A'.toNat + k)).toNat = 65 + k := by
      have hvalid : ('A'.toNat + k).isValidChar := .inl (by change 65 + k < 55296; omega)
      rw [Char.ofNat, dif_pos hvalid]
      rfl
    rw [Char.toString_eq_singleton, Char.toString_eq_singleton, String.singleton_inj] at h
    have hnumber := congrArg Char.toNat h
    rw [hcode hi, hcode hj] at hnumber
    omega
  · exact Nat.repr_inj.mp h

/-- The states of a canonical automaton have different labels. -/
theorem WellFormed.eq_of_label_canonize_eq (hd : d.WellFormed) (hi : i < d.canonize.numStates)
    (hj : j < d.canonize.numStates) (h : d.canonize.label i = d.canonize.label j) : i = j := by
  have hkept := hd.overSorted.kept_reachable
  rw [Dfa.canonize_eq] at hi hj h
  obtain ⟨_, _, hi'⟩ := exists_kept_of_lt hi
  obtain ⟨_, _, hj'⟩ := exists_kept_of_lt hj
  rw [hkept.label_restrict hi', hkept.label_restrict hj'] at h
  rw [numStates_restrict] at hi hj
  exact eq_of_canonicalLabel_eq hi hj h

/-- Automata whose states correspond to each other have the same canonical automaton. -/
theorem Bisimulation.canonize_eq (h : Bisimulation R d e) (hd : d.WellFormed) (he : e.WellFormed)
    (hunique : Relator.BiUnique R) (halphabet : ∀ c, c ∈ d.alphabet ↔ c ∈ e.alphabet)
    (hinitial : R d.initial e.initial) : d.canonize = e.canonize := by
  have hd' := hd.overSorted
  have he' := he.overSorted
  have hsorted : d.overSorted.alphabet = e.overSorted.alphabet := Alphabet.sorted_congr halphabet
  have h' : Bisimulation R d.overSorted e.overSorted := by
    constructor
    · intro i j hij
      rw [overSorted, overSorted, isFinal_withAlphabet, isFinal_withAlphabet]
      exact h.isFinal_eq i j hij
    · intro i j hij c
      rw [overSorted, overSorted, next?_withAlphabet_of_subset d.mem_sorted_of_mem,
        next?_withAlphabet_of_subset e.mem_sorted_of_mem]
      exact h.next i j hij c
  have hall := h'.forall₂_reachable hd' he' hunique hsorted hinitial
  rw [Dfa.canonize_eq, Dfa.canonize_eq, hall.length_eq]
  exact h'.restrict_eq hd' he' hunique hsorted hinitial hd'.kept_reachable he'.kept_reachable hall _

/-- Canonical automata are equal as soon as they differ in the order of their alphabets at most. -/
theorem canonize_equiv_iff : d.canonize ≈ e.canonize ↔ d.canonize = e.canonize := by
  constructor
  · rintro ⟨hchars, hstates, hinitial⟩
    have halphabet : d.canonize.alphabet = e.canonize.alphabet := by
      rw [alphabet_canonize, alphabet_canonize]
      apply Alphabet.sorted_congr
      intro c
      have hc : c ∈ d.canonize.alphabet ↔ c ∈ e.canonize.alphabet := hchars c
      rwa [alphabet_canonize, alphabet_canonize, Alphabet.mem_sorted, Alphabet.mem_sorted] at hc
    generalize d.canonize = m at halphabet hstates hinitial
    generalize e.canonize = m' at halphabet hstates hinitial
    cases m
    cases m'
    cases halphabet
    cases hstates
    cases hinitial
    rfl
  · intro h
    rw [h]
    exact ⟨fun _ ↦ Iff.rfl, rfl, rfl⟩

end LanguageTheory.Dfa
