import LanguageTheory.Proofs.Nfa.Constructions
import LanguageTheory.Proofs.Numbered.Sources

/-!
# Automata whose entries are found

Deterministic automata are made of drafts, of nondeterministic automata and of expressions, or of
one another by the operations of this library. However they are made, their records are sound, and
no operation on them looks for an entry that is not there. Only the automaton of sets of states can
lack an entry: a nondeterministic automaton may refer to states without a label, as it does when it
was made of a deterministic one in which two states have the same label.
-/

namespace LanguageTheory

/-! ### Where automata come from -/

namespace Dfa

variable {d : Dfa}

/-- The deterministic automata that the library makes. -/
inductive Constructible : Dfa → Prop where
  | draft {d : AutomatonDraft} {e : Dfa} : d.toDfa = .ok e → Constructible e
  | subsets {n : Nfa} {e : Dfa} : n.toDfa? = some e → Constructible e
  | expression (r : Regex) : Constructible r.toDfa
  | complete {d : Dfa} : Constructible d → Constructible d.complete
  | removeUnreachable {d : Dfa} : Constructible d → Constructible d.removeUnreachable
  | canonize {d : Dfa} : Constructible d → Constructible d.canonize
  | minimize {d : Dfa} : Constructible d → Constructible d.minimize
  | intersection {d e : Dfa} : Constructible d → Constructible e → Constructible (d.intersection e)
  | union {d e : Dfa} : Constructible d → Constructible e → Constructible (d.union e)

/-- Automata are well formed, however they were made. -/
theorem Constructible.wellFormed (h : d.Constructible) : d.WellFormed := by
  induction h with
  | draft h => exact AutomatonDraft.wellFormed_of_toDfa h
  | @subsets n e h =>
    rw [Nfa.toDfa?] at h
    split at h
    · cases h
      exact n.wellFormed_toDfa
    · cases h
  | expression r => exact r.toNfa.wellFormed_toDfa.isMinimal_minimize.wellFormed
  | complete _ ih => exact ih.complete
  | removeUnreachable _ ih => exact ih.removeUnreachable
  | canonize _ ih => exact ih.canonize
  | minimize _ ih => exact ih.isMinimal_minimize.wellFormed
  | intersection _ _ ihd ihe => exact ihd.product ihe and
  | union _ _ ihd ihe => exact ihd.product ihe or

end Dfa

/-- The nondeterministic automata that the library makes without merging states of one label: those
of deterministic automata are among them if their labels differ. -/
inductive Nfa.Unmerged : Nfa → Prop where
  | draft {d : AutomatonDraft} {n : Nfa} : d.toNfa = .ok n → Unmerged n
  | expression (r : Regex) : Unmerged r.toNfa
  | graph (edits : List RegexGraph.Edit) {n : Nfa} :
      (RegexGraph.ofEdits edits).toNfa = .ok n → Unmerged n
  | dfa {d : Dfa} : d.Constructible → d.HasDistinctLabels → Unmerged d.toNfa
  | grammar {g : RegularGrammar} : g.WellFormed → Unmerged g.toNfa
  | removeEpsilon {n : Nfa} : Unmerged n → Unmerged n.removeEpsilon

/-- Where no states are merged, every state that is referred to has a label. -/
theorem Nfa.Unmerged.isLabelled {n : Nfa} (h : n.Unmerged) : n.IsLabelled := by
  induction h with
  | draft h => exact AutomatonDraft.isLabelled_of_check (AutomatonDraft.toNfa_eq_ok_iff.mp h).1
  | expression r => exact r.isLabelled_toNfa
  | graph edits h => exact (RegexGraph.wellFormed_ofEdits edits).isLabelled_of_toNfa h
  | dfa hd hlabels => exact hd.wellFormed.isLabelled_toNfa hlabels
  | grammar hg => exact hg.isLabelled_toNfa
  | removeEpsilon _ ih => exact ih.removeEpsilon

/-! ### Lookups -/

namespace Dfa

variable {d e : Dfa}

/-- What is computed by lookups in the records of an automaton: the records are sound, every lookup
finds its entry, and the results are those of the automaton. -/
structure FindsEntries (d : Dfa) : Prop where
  sound : d.numbered.Sound
  next : ∀ i < d.numStates, ∀ c,
    d.numbered.next? (d.record i) c = some ((d.next? i c).map d.record)
  run : ∀ i < d.numStates, ∀ w, d.numbered.run? (d.record i) w = some ((d.run i w).map d.record)
  accepts : ∀ w, d.numbered.accepts? w = some (d.accepts w)
  transitions : d.numbered.transitions? =
    some (d.transitions.map fun (i, c, j) ↦ (d.record i, c, d.record j))
  shortestWord : d.numbered.shortestWord? = some d.shortestWord?
  complete : d.numbered.complete? = some d.complete.numbered
  removeUnreachable : d.numbered.removeUnreachable? = some d.removeUnreachable.numbered
  canonize : d.numbered.canonize? = some d.canonize.numbered
  minimize : d.total.numStates < UInt32.size → d.numbered.minimize? = some d.minimize.numbered

/-- A well-formed automaton finds its entries. -/
theorem WellFormed.findsEntries (hd : d.WellFormed) : d.FindsEntries where
  sound := hd.sound_numbered
  next _ hi c := hd.next?_numbered hi c
  run _ hi w := hd.run?_numbered hi w
  accepts := hd.accepts?_numbered
  transitions := hd.transitions?_numbered
  shortestWord := hd.shortestWord?_numbered
  complete := hd.complete?_numbered
  removeUnreachable := hd.removeUnreachable?_numbered
  canonize := hd.canonize?_numbered
  minimize := hd.minimize?_numbered

/-- Automata that the library makes have sound records, in which runs, transitions, shortest words
and all operations find their entries; minimization does so as long as there are fewer than `2 ^ 32`
states. A draft is read without a failed lookup, whether it is accepted or not. The automaton of
sets of states finds its labels if every state that is referred to has one, as in all automata that
are made without merging states of one label. -/
theorem Constructible.entries_found (hd : d.Constructible) (he : e.Constructible)
    (draft : AutomatonDraft) (n : Nfa) (r : Regex) :
    d.FindsEntries ∧
      d.numbered.intersection? e.numbered = some (d.intersection e).numbered ∧
      d.numbered.union? e.numbered = some (d.union e).numbered ∧
      draft.toNumbered?.run = some (draft.toDfa.map numbered) ∧
      (n.IsLabelled → n.toNumbered? = some n.toDfa.numbered) ∧
      (n.Unmerged → n.IsLabelled) ∧
      (r.toNfa.toDfa.total.numStates < UInt32.size → r.toNumbered? = some r.toDfa.numbered) := by
  have hwell := hd.wellFormed
  exact ⟨hwell.findsEntries, hwell.product?_numbered he.wellFormed and,
    hwell.product?_numbered he.wellFormed or, draft.run_toNumbered?,
    fun hn ↦ hn.toNumbered?_eq_some, Nfa.Unmerged.isLabelled, r.toNumbered?_eq_some⟩

/-- The product of an automaton with itself finds its entries, and is minimized. -/
theorem entries_found_intersection :
    (oddLength.intersection oddLength).Constructible ∧
      (oddLength.intersection oddLength).numbered.Sound ∧
      (oddLength.intersection oddLength).total.numStates < UInt32.size ∧
      (oddLength.intersection oddLength).numbered.minimize? =
        some (oddLength.intersection oddLength).minimize.numbered ∧
      oddLength.HasDistinctLabels ∧
      oddLength.toNfa.toNumbered? = some oddLength.toNfa.toDfa.numbered := by
  have hodd : oddLength.Constructible := .draft (d := oddDraft) (by decide)
  have hboth : (oddLength.intersection oddLength).Constructible := .intersection hodd hodd
  have hsize : (oddLength.intersection oddLength).total.numStates < UInt32.size :=
    hboth.wellFormed.numStates_total_le.trans_lt (by decide +kernel)
  have hlabels : oddLength.HasDistinctLabels := by decide
  obtain ⟨hfound, -⟩ := hboth.entries_found hodd oddDraft oddLength.toNfa .epsilon
  obtain ⟨-, -, -, -, hsubsets, hunmerged, -⟩ :=
    hodd.entries_found hodd oddDraft oddLength.toNfa .epsilon
  exact ⟨hboth, hfound.sound, hsize, hfound.minimize hsize, hlabels,
    hsubsets (hunmerged (.dfa hodd hlabels))⟩

/-- The same product, read as a nondeterministic automaton, has two states of one label, so that the
last number has none. Its automaton of sets of states looks for this label. -/
theorem labels_missing_toNfa_intersection :
    (oddLength.intersection oddLength).Constructible ∧
      (oddLength.intersection oddLength).toNfa.toNumbered? = none := by
  have hodd : oddLength.Constructible := .draft (d := oddDraft) (by decide)
  let d := oddLength.intersection oddLength
  have hrun : d.run d.initial ['a'] = some 3 := by decide +kernel
  have hlabels : d.toNfa.numStates ≤ 3 := by decide +kernel
  refine ⟨.intersection hodd hodd, ?_⟩
  rw [Nfa.toNumbered?_eq, toDfa?_toNfa_eq_none hrun hlabels]
  rfl

end Dfa

end LanguageTheory
