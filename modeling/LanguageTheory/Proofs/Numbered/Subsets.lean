import LanguageTheory.Numbered.Subsets
import LanguageTheory.Proofs.Nfa.Subsets
import LanguageTheory.Proofs.Numbered.Operations

/-!
# Numbers of sets of states

A set that was taken into the queue keeps its place there, and this place is the number of its
record: as many records are made as sets were handed out, in the same order. So the numbers that are
given while the queue is worked off are the places of the sets in the queue at the end, and the loop
makes the automaton of sets of states.
-/

namespace LanguageTheory.Nfa

open NumberedDfa (State)

variable {n : Nfa} {subset : List Nat} {q rest known : Agenda (List Nat)}

/-! ### Interning -/

/-- The numbers of the sets that follow a set are their places in any queue that goes on from there.
-/
theorem fst_internSuccessors (n : Nfa) (subset : List Nat) {cs : List Char}
    (hknown : (q.pushMany (cs.filterMap (n.subsetNext? subset))).visited <+: known.visited) :
    (n.internSuccessors subset q cs).1 =
      cs.map fun c ↦ (n.subsetNext? subset c).bind known.idxOf? := by
  induction cs generalizing q with
  | nil => rfl
  | cons c cs ih =>
    rw [internSuccessors, List.map_cons]
    cases hnext : n.subsetNext? subset c with
    | none =>
      rw [List.filterMap_cons_none hnext] at hknown
      exact congrArg (none :: ·) (ih hknown)
    | some next =>
      rw [List.filterMap_cons_some hnext] at hknown
      have hfront : (q.push next).visited <+: known.visited :=
        (Agenda.prefix_visited_pushMany (q.push next) _).trans hknown
      have hplace : known.idxOf? next = some (q.intern next).1 := by
        rw [Agenda.idxOf?_eq_some_iff]
        exact getElem?_eq_some_of_isPrefix hfront (q.getElem?_visited_push next)
      rw [Option.bind_some, hplace, ← ih hknown, ← q.snd_intern next]

/-! ### Records -/

/-- The row of a set: places in a queue of the sets that follow it. -/
def subsetRow (n : Nfa) (known : Agenda (List Nat)) (subset : List Nat) : List (Option Nat) :=
  n.alphabet.toList.map fun c ↦ (n.subsetNext? subset c).bind known.idxOf?

/-- The record of a set with a number: its row has places in a queue. -/
def placedRecord? (n : Nfa) (known : Agenda (List Nat)) (entry : List Nat × Nat) : Option State :=
  n.subsetRecord? entry.1 entry.2 (n.subsetRow known entry.1)

section Step

variable {inside : ∀ s ∈ q.visited, s ∈ n.bounded_subsetSuccessors.choose}
  (hpop : q.pop? = some (subset, rest))
  (hknown : Agenda.work (fun _ ↦ false) n.subsetSuccessors n.bounded_subsetSuccessors q inside =
    known)
include hpop hknown

/-- The set that is handed out is the next one that is known in the end. -/
theorem drop_visited_of_pop? :
    known.visited.drop q.next = subset :: known.visited.drop (q.next + 1) := by
  have hfront : q.visited <+: known.visited :=
    hknown ▸ Agenda.prefix_visited_work _ n.bounded_subsetSuccessors inside
  have hplace : q.visited[q.next]? = some subset := by
    rw [Agenda.visited, Array.getElem?_toList]
    exact Agenda.peek?_of_pop? hpop
  obtain ⟨hlt, hsubset⟩ :=
    List.getElem?_eq_some_iff.mp (getElem?_eq_some_of_isPrefix hfront hplace)
  rw [List.drop_eq_getElem_cons hlt, hsubset]

/-- The row of the set that is handed out has the places in the queue in the end. -/
theorem fst_internSuccessors_of_pop? :
    (n.internSuccessors subset rest n.alphabet.toList).1 = n.subsetRow known subset := by
  apply fst_internSuccessors
  rw [← hknown, Agenda.work_of_pop?_eq_some _ _ _ hpop rfl]
  exact Agenda.prefix_visited_work _ n.bounded_subsetSuccessors _

/-- The sets that are interned go into the queue that is worked off. -/
theorem work_internSuccessors
    (inside' : ∀ s ∈ (n.internSuccessors subset rest n.alphabet.toList).2.visited,
      s ∈ n.bounded_subsetSuccessors.choose) :
    Agenda.work (fun _ ↦ false) n.subsetSuccessors n.bounded_subsetSuccessors
      (n.internSuccessors subset rest n.alphabet.toList).2 inside' = known := by
  rw [← hknown, Agenda.work_of_pop?_eq_some _ _ _ hpop rfl]
  congr 1
  exact n.snd_internSuccessors subset rest

omit hknown in
/-- One more set is handed out when the sets that follow a set are interned. -/
theorem next_internSuccessors :
    (n.internSuccessors subset rest n.alphabet.toList).2.next = q.next + 1 := by
  obtain ⟨_, _, rfl⟩ := Agenda.pop?_eq_some_iff.mp hpop
  rw [snd_internSuccessors, Agenda.next_pushMany]

end Step

/-- All sets that the queue knows in the end have records with their places in it, behind the
records of those that were handed out. -/
theorem recordSubsets?_eq {inside : ∀ s ∈ q.visited, s ∈ n.bounded_subsetSuccessors.choose}
    {records : List State} (hlength : records.length = q.next)
    (hknown : Agenda.work (fun _ ↦ false) n.subsetSuccessors n.bounded_subsetSuccessors q inside =
      known) :
    n.recordSubsets? q inside records =
      (((known.visited.drop q.next).zipIdx q.next).mapM (n.placedRecord? known)).map
        (records ++ ·) := by
  fun_induction recordSubsets? n q inside records with
  | case1 q inside records hpop =>
    rw [Agenda.work_of_pop?_eq_none _ _ _ hpop] at hknown
    subst hknown
    have hdone : q.visited.length ≤ q.next := by
      rw [Agenda.visited, Array.length_toList]
      exact Agenda.pop?_eq_none_iff.mp hpop
    simp [List.drop_eq_nil_of_le hdone]
  | case2 q inside records subset rest hpop interned inside' hrecord =>
    have hrow : interned.1 = n.subsetRow known subset := fst_internSuccessors_of_pop? hpop hknown
    have hplaced : n.placedRecord? known (subset, q.next) = none := by
      rw [placedRecord?, ← hrow, ← hlength, hrecord]
    rw [drop_visited_of_pop? hpop hknown, List.zipIdx_cons, List.mapM_cons, hplaced]
    rfl
  | case3 q inside records subset rest hpop interned inside' record hrecord ih =>
    have hrow : interned.1 = n.subsetRow known subset := fst_internSuccessors_of_pop? hpop hknown
    have hplaced : n.placedRecord? known (subset, q.next) = some record := by
      rw [placedRecord?, ← hrow, ← hlength, hrecord]
    have hnext : interned.2.next = q.next + 1 := next_internSuccessors hpop
    rw [ih (by simp [hnext, hlength]) (work_internSuccessors hpop hknown inside'), hnext,
      drop_visited_of_pop? hpop hknown, List.zipIdx_cons, List.mapM_cons, hplaced]
    cases ((known.visited.drop (q.next + 1)).zipIdx (q.next + 1)).mapM (n.placedRecord? known) <;>
      simp

/-- The loop makes a record for each set that the search meets, with its place as its number. -/
theorem toNumbered?_eq_bind (n : Nfa) : n.toNumbered? =
    (n.subsets.visited.zipIdx.mapM (n.placedRecord? n.subsets)).bind fun records ↦
      NumberedDfa.assemble? n.alphabet records 0 := by
  have hstart : (Agenda.ofList [n.start.sorted]).next = 0 := Agenda.next_pushMany ∅ _
  have hlength : ([] : List State).length = (Agenda.ofList [n.start.sorted]).next := hstart.symm
  rw [toNumbered?]
  rw [recordSubsets?_eq hlength rfl, hstart]
  exact congrArg (Option.bind · _) Option.map_id'

/-! ### The automaton of sets of states -/

/-- The record of a set of states. -/
def subsetRecord (n : Nfa) (entry : List Nat × Nat) : State where
  id := entry.2
  label := n.subsetLabel entry.1
  isFinal := entry.1.any n.isAccepting
  next := n.subsetRow n.subsets entry.1

/-- The records of the sets of states are those of the automaton. -/
theorem states_numbered_toDfa (n : Nfa) :
    n.toDfa.numbered.states = n.subsets.visited.zipIdx.map n.subsetRecord := by
  refine List.ext_getElem? fun k ↦ ?_
  rw [Dfa.getElem?_numbered, state?_toDfa, List.getElem?_map, List.getElem?_zipIdx, Nat.zero_add]
  cases n.subsets.visited[k]? <;> rfl

/-- A set has a record when its elements have labels. -/
theorem placedRecord?_eq_some {entry : List Nat × Nat} (h : ∀ i ∈ entry.1, i < n.numStates) :
    n.placedRecord? n.subsets entry = some (n.subsetRecord entry) := by
  have hlabels : entry.1.mapM n.labels.get? = some (entry.1.map n.label) := by
    refine mapM_eq_some_map fun i hi ↦ ?_
    obtain ⟨label, hlabel⟩ : ∃ label, n.labels.get? i = some label :=
      ⟨_, List.getElem?_eq_getElem (h i hi)⟩
    rw [Nfa.label, hlabel]
    rfl
  rw [placedRecord?, subsetRecord?, hlabels]
  rfl

/-- A set has no record when one of its elements has no label. -/
theorem placedRecord?_eq_none {entry : List Nat × Nat} {i : Nat} (hi : i ∈ entry.1)
    (h : n.numStates ≤ i) : n.placedRecord? known entry = none := by
  have hlabel : n.labels.get? i = none := List.getElem?_eq_none h
  rw [placedRecord?, subsetRecord?, mapM_eq_none_of_mem hi hlabel]
  rfl

/-- The records of the sets of states exist when the elements of the sets have labels, and then they
are those of the automaton. -/
theorem toNumbered?_eq (n : Nfa) : n.toNumbered? = n.toDfa?.map Dfa.numbered := by
  rw [toNumbered?_eq_bind, toDfa?]
  by_cases hlabels : (n.subsets.visited.all fun subset ↦ subset.all (· < n.numStates)) = true
  · have hrow : ∀ entry ∈ n.subsets.visited.zipIdx, n.placedRecord? n.subsets entry =
        some (n.subsetRecord entry) := by
      intro entry hentry
      have hsubset := List.all_eq_true.mp hlabels _ (List.fst_mem_of_mem_zipIdx hentry)
      exact placedRecord?_eq_some fun i hi ↦ by simpa using List.all_eq_true.mp hsubset i hi
    rw [if_pos hlabels, mapM_eq_some_map hrow]
    exact n.wellFormed_toDfa.assemble?_eq rfl n.states_numbered_toDfa.symm rfl
  · obtain ⟨subset, hsubset, hall⟩ := List.all_eq_false.mp (Bool.not_eq_true _ ▸ hlabels)
    obtain ⟨i, hi, hlabel⟩ := List.all_eq_false.mp (Bool.not_eq_true _ ▸ hall)
    obtain ⟨k, hk⟩ := List.mem_iff_getElem?.mp hsubset
    have hentry : (subset, k) ∈ n.subsets.visited.zipIdx := List.mk_mem_zipIdx_iff_getElem?.mpr hk
    have hnone : n.placedRecord? n.subsets (subset, k) = none :=
      placedRecord?_eq_none hi (by simpa using hlabel)
    rw [if_neg hlabels, mapM_eq_none_of_mem hentry hnone]
    rfl

/-- The numbered automaton of sets of states exists when every state that is referred to has a
label. -/
theorem IsLabelled.toNumbered?_eq_some (hn : n.IsLabelled) :
    n.toNumbered? = some n.toDfa.numbered := by
  rw [toNumbered?_eq, hn.toDfa?_eq_some]
  rfl

/-- When all states have labels, the loop that numbers sets of states as it meets them ends with the
automaton of sets of states. A run of it is stuck when the word leaves the alphabet or reaches no
state, and ends in the state for the set of the states that the word reaches otherwise. Its states
stand for different sets, none of which is empty. -/
theorem toNumbered?_correct (hlabels : n.IsLabelled) (hinitial : ∃ i, i ∈ n.initial) :
    n.toNumbered? = some n.toDfa.numbered ∧
      (∀ w, n.toDfa.run n.toDfa.initial w = none ↔
        (∃ c ∈ w, c ∉ n.alphabet) ∨ ∀ j, ¬ n.Reaches w j) ∧
      (∀ w k, n.toDfa.run n.toDfa.initial w = some k →
        k < n.toDfa.numStates ∧ ∀ j, j ∈ n.members k ↔ n.Reaches w j) ∧
      (∀ w, n.toDfa.accepts w = n.accepts w) ∧
      (∀ k < n.toDfa.numStates, n.members k ≠ [] ∧
        (∃ w, n.toDfa.run n.toDfa.initial w = some k) ∧
        n.toDfa.label k = n.subsetLabel (n.members k) ∧
        (n.toDfa.isFinal k = true ↔ ∃ j ∈ n.members k, j ∈ n.accepting)) ∧
      ∀ k < n.toDfa.numStates, ∀ l < n.toDfa.numStates,
        (∀ j, j ∈ n.members k ↔ j ∈ n.members l) → k = l := by
  have hwell := wellFormed_toDfa n
  refine ⟨hlabels.toNumbered?_eq_some, fun w ↦ run_toDfa_eq_none_iff hinitial, fun w k h ↦ ?_,
    accepts_toDfa n, fun k hk ↦ ?_, fun k hk l hl ↦ eq_of_members_eq hk hl⟩
  · exact ⟨hwell.lt_of_run hwell.initial_lt h, fun j ↦ mem_members_of_run h⟩
  · have hs := getElem?_subsets hk
    have hmem := List.mem_of_getElem? hs
    obtain ⟨w, l, hw, hl⟩ := exists_run_of_mem_subsets hmem
    rw [← Agenda.idxOf?_eq_some_iff] at hl
    rw [Agenda.idxOf?_eq_some_iff.mpr hs] at hl
    cases hl
    exact ⟨ne_nil_of_mem_subsets hinitial hmem, ⟨w, hw⟩, label_toDfa hs, isFinal_toDfa hs⟩

/-- The automaton of sets of states for two initial states and a loop that reads nothing. -/
theorem toNumbered?_correct_loops :
    loops.IsLabelled ∧ (∃ i, i ∈ loops.initial) ∧
      loops.toNumbered? = some loops.toDfa.numbered ∧
      (∀ w, loops.toDfa.run loops.toDfa.initial w = none ↔
        (∃ c ∈ w, c ∉ loops.alphabet) ∨ ∀ j, ¬ loops.Reaches w j) ∧
      (∀ w k, loops.toDfa.run loops.toDfa.initial w = some k →
        k < loops.toDfa.numStates ∧ ∀ j, j ∈ loops.members k ↔ loops.Reaches w j) ∧
      ∀ w, loops.toDfa.accepts w = loops.accepts w := by
  have hlabels : loops.IsLabelled := by decide
  have hinitial : ∃ i, i ∈ loops.initial := ⟨0, by decide⟩
  obtain ⟨hfound, hnone, hrun, hwords, _⟩ := toNumbered?_correct hlabels hinitial
  exact ⟨hlabels, hinitial, hfound, hnone, hrun, hwords⟩

/-- The first set has the second one as successor, which is handed out after it. -/
example : loops.toNumbered?.map (fun t ↦ t.states.map State.next) =
    some [[some 1, some 0], [none, some 0]] := by cbv

end LanguageTheory.Nfa
