import LanguageTheory.Dfa.Product
import LanguageTheory.Proofs.Collections.Indexing
import LanguageTheory.Proofs.Dfa.Equivalence

/-!
# Languages of products

A run of a product is a pair of runs, one in each of the completed operands. Over the union of the
alphabets neither of the two is ever stuck alone, so the product accepts a word by what the operands
say about it.
-/

namespace LanguageTheory.Dfa

variable {accept : Bool → Bool → Bool} {d e : Dfa} {i j k : Nat} {c : Char} {w : List Char}

/-! ### Pairs of states -/

/-- The automaton of the pairs of states of two automata over the same alphabet. -/
def paired (accept : Bool → Bool → Bool) (d e : Dfa) : Dfa where
  alphabet := d.alphabet
  states := d.states.flatMap fun s ↦ e.states.map fun t ↦
    { label := "(" ++ s.label ++ "," ++ t.label ++ ")"
      isFinal := accept s.isFinal t.isFinal
      next := s.next.zipWith
        (fun i j ↦ i.bind fun i ↦ j.map fun j ↦ i * e.numStates + j) t.next }
  initial := d.initial * e.numStates + e.initial

/-- The automaton read over a larger alphabet and completed. -/
def completedOver (d : Dfa) (a : Alphabet) : Dfa := (d.withAlphabet a).complete

/-- A product pairs the states of the operands, completed over the union of their alphabets. -/
theorem product_eq (accept : Bool → Bool → Bool) (d e : Dfa) :
    d.product accept e = paired accept (d.completedOver (d.alphabet ∪ e.alphabet))
      (e.completedOver (d.alphabet ∪ e.alphabet)) := by
  unfold product paired completedOver
  rw [alphabet_complete, alphabet_withAlphabet]

/-- There are as many pairs as the product of the numbers of states. -/
@[simp]
theorem numStates_paired (accept : Bool → Bool → Bool) (d e : Dfa) :
    (paired accept d e).numStates = d.numStates * e.numStates := by
  rw [numStates, ← Array.length_toList, paired, Array.toList_flatMap,
    length_flatMap_of_length (n := e.numStates) fun s _ ↦ by simp [numStates]]
  rfl

/-- A pair comes after the pairs with an earlier first part, in the order of the second parts. -/
theorem state?_paired {s t : State} (hs : d.state? i = some s) (ht : e.state? j = some t) :
    (paired accept d e).state? (i * e.numStates + j) = some
      { label := "(" ++ s.label ++ "," ++ t.label ++ ")"
        isFinal := accept s.isFinal t.isFinal
        next := s.next.zipWith
          (fun i j ↦ i.bind fun i ↦ j.map fun j ↦ i * e.numStates + j) t.next } := by
  have hj : j < e.numStates := exists_state?_iff.mp ⟨t, ht⟩
  rw [state?, ← Array.getElem?_toList, paired, Array.toList_flatMap,
    getElem?_flatMap_of_length (fun s _ ↦ by simp [numStates]) i hj]
  rw [state?, ← Array.getElem?_toList] at hs ht
  simp [hs, ht]

/-- A number of a pair is made of the numbers of its parts. -/
theorem exists_parts_of_lt (hk : k < (paired accept d e).numStates) :
    ∃ i < d.numStates, ∃ j < e.numStates, k = i * e.numStates + j := by
  rw [numStates_paired] at hk
  have he : 0 < e.numStates := Nat.pos_of_lt_mul_left hk
  exact ⟨k / e.numStates, Nat.div_lt_of_lt_mul (by rwa [Nat.mul_comm]), k % e.numStates,
    Nat.mod_lt _ he, (Nat.div_add_mod' _ _).symm⟩

/-- The number of a pair of states is that of a state. -/
theorem pair_lt (hi : i < d.numStates) (hj : j < e.numStates) :
    i * e.numStates + j < (paired accept d e).numStates := by
  rw [numStates_paired]
  calc i * e.numStates + j < i * e.numStates + e.numStates := Nat.add_lt_add_left hj _
    _ = (i + 1) * e.numStates := (Nat.succ_mul _ _).symm
    _ ≤ d.numStates * e.numStates := Nat.mul_le_mul_right _ hi

section Paired

variable (hd : d.WellFormed) (he : e.WellFormed) (halphabet : d.alphabet = e.alphabet)

/-- A pair is final by the finality of its parts. -/
theorem isFinal_paired (hi : i < d.numStates) (hj : j < e.numStates) :
    (paired accept d e).isFinal (i * e.numStates + j) = accept (d.isFinal i) (e.isFinal j) := by
  obtain ⟨s, hs⟩ := exists_state?_iff.mpr hi
  obtain ⟨t, ht⟩ := exists_state?_iff.mpr hj
  rw [isFinal_of_state? (state?_paired hs ht), isFinal_of_state? hs, isFinal_of_state? ht]

include hd he halphabet

/-- A pair lists the pairs of the successors of its parts. -/
theorem next_paired {s t : State} (hs : d.state? i = some s) (ht : e.state? j = some t) :
    s.next.zipWith (fun i j ↦ i.bind fun i ↦ j.map fun j ↦ i * e.numStates + j) t.next =
      d.alphabet.toList.map fun c ↦
        (d.next? i c).bind fun i ↦ (e.next? j c).map fun j ↦ i * e.numStates + j := by
  rw [hd.next_eq hs, he.next_eq ht, ← halphabet, List.zipWith_map, List.zipWith_self]

/-- The successor of a pair is the pair of the successors of its parts. -/
theorem next?_paired (hi : i < d.numStates) (hj : j < e.numStates) (c : Char) :
    (paired accept d e).next? (i * e.numStates + j) c =
      (d.next? i c).bind fun i ↦ (e.next? j c).map fun j ↦ i * e.numStates + j := by
  obtain ⟨s, hs⟩ := exists_state?_iff.mpr hi
  obtain ⟨t, ht⟩ := exists_state?_iff.mpr hj
  by_cases hc : c ∈ d.alphabet
  · exact next?_of_next_eq (state?_paired hs ht) (next_paired hd he halphabet hs ht) hc
  · rw [next?_of_notMem hc, next?_of_notMem (d := paired accept d e) hc]
    rfl

/-- The automaton of the pairs is well formed. -/
theorem WellFormed.paired : (paired accept d e).WellFormed := by
  refine .of_next (pair_lt hd.initial_lt he.initial_lt) fun k u hu ↦ ?_
  obtain ⟨i, hi, j, hj, rfl⟩ := exists_parts_of_lt (exists_state?_iff.mp ⟨u, hu⟩)
  obtain ⟨s, hs⟩ := exists_state?_iff.mpr hi
  obtain ⟨t, ht⟩ := exists_state?_iff.mpr hj
  rw [state?_paired hs ht] at hu
  cases hu
  refine ⟨_, next_paired hd he halphabet hs ht, fun c k hk ↦ ?_⟩
  obtain ⟨i', hi', hk⟩ := Option.bind_eq_some_iff.mp hk
  obtain ⟨j', hj', rfl⟩ := Option.map_eq_some_iff.mp hk
  exact pair_lt (hd.lt_of_next? hi') (he.lt_of_next? hj')

/-- A run of pairs is a pair of runs. -/
theorem run_paired (hi : i < d.numStates) (hj : j < e.numStates) (w : List Char) :
    (Dfa.paired accept d e).run (i * e.numStates + j) w =
      (d.run i w).bind fun i ↦ (e.run j w).map fun j ↦ i * e.numStates + j := by
  induction w generalizing i j with
  | nil => rfl
  | cons c w ih =>
    rw [run_cons, run_cons, run_cons, next?_paired hd he halphabet hi hj]
    cases hi' : d.next? i c with
    | none => rfl
    | some i' =>
      cases hj' : e.next? j c with
      | none => simp
      | some j' => exact ih (hd.lt_of_next? hi') (he.lt_of_next? hj')

/-- Of complete automata, the pairs accept a word by what the parts say about it. -/
theorem accepts_paired (hdc : d.isComplete = true) (hec : e.isComplete = true)
    (haccept : accept false false = false) (w : List Char) :
    (Dfa.paired accept d e).accepts w = accept (d.accepts w) (e.accepts w) := by
  have hrun : (Dfa.paired accept d e).run (Dfa.paired accept d e).initial w = _ :=
    run_paired hd he halphabet hd.initial_lt he.initial_lt w
  by_cases hw : ∀ c ∈ w, c ∈ d.alphabet
  · -- Neither part is stuck.
    obtain ⟨i, hi⟩ := hd.exists_run hdc hd.initial_lt hw
    obtain ⟨j, hj⟩ := he.exists_run hec he.initial_lt (halphabet ▸ hw)
    rw [hi, hj] at hrun
    have hfinal : (Dfa.paired accept d e).isFinal _ = _ :=
      isFinal_paired (hd.lt_of_run hd.initial_lt hi) (he.lt_of_run he.initial_lt hj)
    rw [accepts, accepts, accepts, hi, hj]
    exact (congrArg (Option.elim · false _) hrun).trans hfinal
  · -- Both parts are stuck.
    have hd' : d.run d.initial w = none :=
      Option.eq_none_iff_forall_ne_some.mpr fun i hi ↦ hw (mem_alphabet_of_run hi)
    have he' : e.run e.initial w = none :=
      Option.eq_none_iff_forall_ne_some.mpr fun j hj ↦ hw (halphabet ▸ mem_alphabet_of_run hj)
    rw [hd', he'] at hrun
    rw [accepts, accepts, accepts, hd', he']
    exact (congrArg (Option.elim · false _) hrun).trans haccept.symm

end Paired

/-! ### Products -/

/-- An automaton that is completed over any alphabet is well formed. -/
theorem WellFormed.completedOver (hd : d.WellFormed) (a : Alphabet) :
    (d.completedOver a).WellFormed := (hd.withAlphabet a).complete

/-- The operands of a product have the same alphabet. -/
theorem alphabet_completedOver (d : Dfa) (a : Alphabet) : (d.completedOver a).alphabet = a := by
  rw [Dfa.completedOver, alphabet_complete, alphabet_withAlphabet]

/-- Over an alphabet that has all its characters, an automaton accepts the same words after
completion. -/
theorem WellFormed.accepts_completedOver (hd : d.WellFormed) {a : Alphabet}
    (ha : ∀ c ∈ d.alphabet, c ∈ a) (w : List Char) :
    (d.completedOver a).accepts w = d.accepts w := by
  rw [Dfa.completedOver, (hd.withAlphabet a).accepts_complete, accepts_withAlphabet ha]

/-- A product is well formed. -/
theorem WellFormed.product (hd : d.WellFormed) (he : e.WellFormed)
    (accept : Bool → Bool → Bool) : (d.product accept e).WellFormed := by
  rw [product_eq]
  exact (hd.completedOver _).paired (he.completedOver _)
    ((alphabet_completedOver _ _).trans (alphabet_completedOver _ _).symm)

/-- A product accepts a word by what its operands say about it, if it rejects what both reject. -/
theorem WellFormed.accepts_product (hd : d.WellFormed) (he : e.WellFormed)
    (haccept : accept false false = false) (w : List Char) :
    (d.product accept e).accepts w = accept (d.accepts w) (e.accepts w) := by
  rw [product_eq, accepts_paired (hd.completedOver _) (he.completedOver _)
    ((alphabet_completedOver _ _).trans (alphabet_completedOver _ _).symm)
    (hd.withAlphabet _).isComplete_complete (he.withAlphabet _).isComplete_complete haccept,
    hd.accepts_completedOver fun c hc ↦ Alphabet.mem_union.mpr (.inl hc),
    he.accepts_completedOver fun c hc ↦ Alphabet.mem_union.mpr (.inr hc)]

/-- The intersection of two automata accepts the words that both accept, and their union those that
one of the two accepts, whatever their alphabets are and whichever transitions they lack. -/
theorem accepts_intersection_and_union (hd : d.WellFormed) (he : e.WellFormed) (w : List Char) :
    (d.intersection e).accepts w = (d.accepts w && e.accepts w) ∧
      (d.union e).accepts w = (d.accepts w || e.accepts w) :=
  ⟨hd.accepts_product he rfl w, hd.accepts_product he rfl w⟩

/-- A partial automaton and one with a character that the first one does not know: a word with this
character is in the union only. -/
theorem accepts_intersection_and_union_aThenBsOrC :
    aThenBs.WellFormed ∧ { aThenBsOrC with initial := 3 }.WellFormed ∧ 'c' ∉ aThenBs.alphabet ∧
      (aThenBs.intersection { aThenBsOrC with initial := 3 }).accepts ['c'] = false ∧
      (aThenBs.union { aThenBsOrC with initial := 3 }).accepts ['c'] = true := by
  have hd : aThenBs.WellFormed := by decide
  have he : { aThenBsOrC with initial := 3 }.WellFormed := by decide
  obtain ⟨hintersection, hunion⟩ := accepts_intersection_and_union hd he ['c']
  exact ⟨hd, he, by decide, hintersection.trans (by decide), hunion.trans (by decide)⟩

end LanguageTheory.Dfa
