import LanguageTheory.Proofs.Dfa.Minimization
import LanguageTheory.Proofs.Numbered.Operations
import LanguageTheory.Proofs.Numbered.Refinement
import LanguageTheory.Proofs.Partition.PackedRefinement

/-!
# Minimization that finds its entries

Minimization works on a table of 32-bit numbers, in which the successors of all states stand one
after the other. As long as there are fewer than `2 ^ 32` states, nothing is lost in the table, and
the divisions of the states and the merged automaton are found in it. The division may be kept in
one array: the blocks that are merged are the same.
-/

namespace LanguageTheory

/-- Alphabets have fewer than `2 ^ 32` characters. -/
theorem Alphabet.size_lt (a : Alphabet) : a.size < UInt32.size := by
  have hcode : ∀ c : Char, c.toNat < 0x110000 := by
    intro c
    have hvalid := c.valid
    simp only [UInt32.isValidChar, Nat.isValidChar] at hvalid
    rw [Char.toNat]
    omega
  have hsub : a.toList.map Char.toNat ⊆ List.range 0x110000 := by
    intro k hk
    obtain ⟨c, -, rfl⟩ := List.mem_map.mp hk
    exact List.mem_range.mpr (hcode c)
  have hnodup : (a.toList.map Char.toNat).Nodup :=
    a.chars.nodup.map fun _ _ h ↦ Char.toNat_inj.mp h
  have hle := (hnodup.subperm hsub).length_le
  rw [List.length_map, List.length_range] at hle
  exact Nat.lt_of_le_of_lt hle (by decide)

namespace Dfa

variable {d : Dfa} {i j k b : Nat} {s : State} {p : Partition}

/-! ### The table of successors -/

section Table

variable (hd : d.WellFormed) (hcomplete : d.isComplete = true) (hsize : d.numStates < UInt32.size)
include hd hcomplete hsize

/-- The table has the successor on the `k`-th character of state number `i` in its place. -/
theorem WellFormed.getElem?_flattened (hi : i < d.numStates) (hk : k < d.alphabet.size) :
    d.numbered.flattened[i * d.alphabet.size + k]? = some (d.delta i k) := by
  have hrow : ∀ r ∈ d.numbered.states,
      (r.next.map fun target ↦ narrow (target.getD r.id)).length = d.alphabet.size :=
    fun r hr ↦ by rw [List.length_map, hd.sound_numbered.length_next r hr]; rfl
  obtain ⟨s, hs⟩ := exists_state?_iff.mpr hi
  have hfound : k < s.next.length := by rwa [hd.length_next s (mem_states_of_state? hs)]
  have hdelta := hd.delta_lt hcomplete hi hk
  rw [NumberedDfa.flattened, getElem?_flatMap_of_length hrow i hk, getElem?_numbered, hs,
    Option.map_some, Option.bind_some, List.getElem?_map]
  rw [delta, hs, Option.bind_some] at hdelta ⊢
  change Option.map _ s.next[k]? = _
  rw [List.getElem?_eq_getElem hfound] at hdelta ⊢
  exact congrArg some (narrow_of_lt (hdelta.trans hsize))

/-- The division of the states is that of the automaton. -/
theorem WellFormed.refinement?_numbered : d.numbered.refinement? = some d.refinement := by
  have hstates : narrow d.numbered.states.length = d.numStates := by
    rw [length_numbered, narrow_of_lt hsize]
  have hsymbols : narrow d.numbered.alphabet.size = d.alphabet.size :=
    narrow_of_lt d.alphabet.size_lt
  have hfinal : ∀ i < d.numStates,
      d.numbered.states[i]?.map NumberedDfa.State.isFinal = some (d.isFinal i) := by
    intro i hi
    obtain ⟨s, hs⟩ := exists_state?_iff.mpr hi
    rw [getElem?_numbered, hs, isFinal_of_state? hs]
    rfl
  rw [NumberedDfa.refinement?, hstates, hsymbols, Refinement.start?_eq_some hfinal]
  exact Refinement.stabilize?_eq_some (Refinement.wellFormed_start _ _ _) fun i hi k hk ↦
    ⟨hd.getElem?_flattened hcomplete hsize hi hk, hd.delta_lt hcomplete hi hk⟩

end Table

/-! ### Merged states -/

section Merged

variable (hd : d.WellFormed) (hp : p.WellFormed d.numStates) (hsize : d.numStates < UInt32.size)
include hd hp hsize

/-- The blocks of the successors of a state are found. -/
theorem WellFormed.mapM_blockOf? (hs : d.state? i = some s) :
    s.next.mapM (fun target ↦ target.mapM fun j ↦ p.blockOf? (narrow j)) =
      some (s.next.map fun target ↦ target.bind p.blockOf?) := by
  refine mapM_eq_some_map fun target htarget ↦ ?_
  cases target with
  | none => rfl
  | some j =>
    have hj := hd.next_lt s (mem_states_of_state? hs) j htarget
    obtain ⟨b, hb⟩ := hp.exists_blockOf?_iff.mpr hj
    rw [Option.bind_some, hb]
    change some <$> p.blockOf? (narrow j) = _
    rw [narrow_of_lt (hj.trans hsize), hb]
    rfl

/-- The record of a block is found. -/
theorem WellFormed.blockRecord?_numbered (hb : b < p.numBlocks) :
    d.numbered.blockRecord? p b = some ((d.quotient p).record b) := by
  obtain ⟨i, hfirst, hrecord⟩ := hp.exists_first? hb
  obtain ⟨s, hs⟩ := exists_state?_iff.mpr (hp.exists_blockOf?_iff.mp ⟨b, hrecord⟩)
  have hfound : d.numbered.states[i]? = some (s.numbered i) := by
    rw [getElem?_numbered, hs]
    rfl
  have hnext : (s.numbered i).next = s.next := rfl
  rw [record_of_state? (state?_quotient hfirst hs)]
  simp only [NumberedDfa.blockRecord?, hfirst, hfound, hnext, hd.mapM_blockOf? hp hsize hs,
    Option.bind_eq_bind, Option.bind_some]
  rfl

/-- Merging the states of each block finds its entries. -/
theorem WellFormed.quotient?_numbered :
    d.numbered.quotient? p = some (d.quotient p).numbered := by
  have hblocks : narrow p.numBlocks = p.numBlocks := narrow_of_lt (hp.numBlocks_le.trans_lt hsize)
  have hplace : narrow d.numbered.initial = d.initial := narrow_of_lt (hd.initial_lt.trans hsize)
  have hinitial := blockOf?_initial_quotient hd hp
  have hrecords : (List.range p.numBlocks).mapM (d.numbered.blockRecord? p) =
      some ((List.range p.numBlocks).map (d.quotient p).record) :=
    mapM_eq_some_map fun b hb ↦ hd.blockRecord?_numbered hp hsize (List.mem_range.mp hb)
  rw [NumberedDfa.quotient?, hblocks, hrecords, hplace, hinitial]
  refine (hd.quotient hp).assemble?_eq rfl ?_ rfl
  rw [states_numbered, numStates_quotient]

end Merged

/-! ### Minimal automata -/

namespace WellFormed

variable (hd : d.WellFormed)
include hd

/-- Minimization finds the complete automaton of the reachable states, whose states it divides,
merges and numbers. -/
theorem minimize?_eq_bind : d.numbered.minimize? =
    d.total.numbered.refinement?.bind fun r ↦
      (d.total.numbered.quotient? r.partition).bind NumberedDfa.canonize? := by
  have htotal : d.overSorted.complete.numbered.removeUnreachable? = some d.total.numbered :=
    hd.overSorted.complete.removeUnreachable?_numbered
  rw [NumberedDfa.minimize?, hd.overSorted_numbered, Option.bind_eq_bind, Option.bind_some,
    hd.overSorted.complete?_numbered, Option.bind_eq_bind, Option.bind_some, htotal]
  rfl

variable (hsize : d.total.numStates < UInt32.size)
include hsize

/-- Minimization finds its entries, if fewer than `2 ^ 32` states are left when the automaton is
complete and its unreachable states are removed. -/
theorem minimize?_numbered : d.numbered.minimize? = some d.minimize.numbered := by
  have hp : d.total.refinement.partition.WellFormed d.total.numStates :=
    Refinement.wellFormed_run (Refinement.wellFormed_start _ _ _)
  have hmerged : d.total.numbered.quotient? d.total.refinement.partition =
      some d.merged.numbered := hd.total.quotient?_numbered hp hsize
  rw [hd.minimize?_eq_bind, hd.total.refinement?_numbered hd.isComplete_total hsize,
    Option.bind_some, hmerged, Option.bind_some]
  exact hd.isMinimal_merged.wellFormed.canonize?_numbered

/-- The successors that minimization reads in its table are those of the automaton. Refinement by
them in one array ends without a failure, and minimization merges the blocks that it leaves. -/
theorem exists_run?_and_minimize?_eq :
    (∀ i < d.total.numStates, ∀ k < d.total.alphabet.size,
      d.total.numbered.flattened[i * d.total.alphabet.size + k]? = some (d.total.delta i k)) ∧
    ∃ before after,
      PackedRefinement.start? d.total.numStates d.total.alphabet.size d.total.isFinal =
        some before ∧
      PackedRefinement.run? d.total.delta before = some after ∧
      after.partition.WellFormed d.total.numStates ∧
      d.numbered.minimize? =
        (d.total.numbered.quotient? after.unpack.partition).bind NumberedDfa.canonize? := by
  have hcomplete := hd.isComplete_total
  refine ⟨fun i hi k hk ↦ hd.total.getElem?_flattened hcomplete hsize hi hk, ?_⟩
  obtain ⟨before, hstart, hbefore, hfirst⟩ := PackedRefinement.exists_start?
    d.total.numStates d.total.alphabet.size d.total.isFinal
  have hstates : before.numStates = d.total.numStates := congrArg Refinement.numStates hfirst
  have hsymbols : before.numSymbols = d.total.alphabet.size :=
    congrArg Refinement.numSymbols hfirst
  rw [← hstates] at hbefore
  obtain ⟨after, hrun, hafter, hlast⟩ := PackedRefinement.exists_run? hbefore fun s hs c hc ↦ by
    rw [hstates] at hs ⊢
    rw [hsymbols] at hc
    exact hd.total.delta_lt hcomplete hs hc
  have hblocks : d.total.numbered.refinement? = some after.unpack := by
    rw [hd.total.refinement?_numbered hcomplete hsize, hlast, hfirst]
    rfl
  refine ⟨before, after, hstart, hrun, hstates ▸ hafter, ?_⟩
  rw [hd.minimize?_eq_bind, hblocks, Option.bind_some]

end WellFormed

end Dfa

end LanguageTheory
