import LanguageTheory.Dfa.Reachability

/-!
# Numbered automata

In a numbered automaton every state records its own number, and computations find states, entries
of states and characters by number. The computations below follow the lookups one by one and give
`none` as soon as one of them asks for an entry that is not there.

Spec guidance: `SPEC_FULL.md` §§3, 11.1.
-/

namespace LanguageTheory

/-- State of a numbered automaton. -/
structure NumberedDfa.State where
  id : Nat
  label : String
  isFinal : Bool
  /-- Successors, in the order of the alphabet. -/
  next : List (Option Nat)
  deriving DecidableEq

/-- Deterministic automaton whose states record their numbers. -/
structure NumberedDfa where
  alphabet : Alphabet
  states : List NumberedDfa.State
  /-- Number of the initial state. -/
  initial : Nat
  deriving DecidableEq

/-- The record of a state with its number. -/
def Dfa.State.numbered (i : Nat) (s : Dfa.State) : NumberedDfa.State :=
  ⟨i, s.label, s.isFinal, s.next⟩

/-- The automaton with the number of each state in its record. -/
def Dfa.numbered (d : Dfa) : NumberedDfa where
  alphabet := d.alphabet
  states := d.states.toList.mapIdx Dfa.State.numbered
  initial := d.initial

namespace NumberedDfa

/-- What makes every lookup by number succeed: states record their places, each of them lists one
entry for each character, the initial state and all successors exist, and no character is listed
twice. -/
structure Sound (t : NumberedDfa) : Prop where
  id_eq : ∀ (i : Nat) (s : State), t.states[i]? = some s → s.id = i
  length_next : ∀ s ∈ t.states, s.next.length = t.alphabet.size
  next_lt : ∀ s ∈ t.states, ∀ j, some j ∈ s.next → j < t.states.length
  initial_lt : t.initial < t.states.length
  nodup : t.alphabet.toList.Nodup

/-- An automaton that is put together; `none` if its initial state is missing or a state does not
record its place. -/
def assemble? (alphabet : Alphabet) (states : List State) (initial : Nat) : Option NumberedDfa :=
  if initial < states.length ∧ states.map State.id = List.range states.length then
    some ⟨alphabet, states, initial⟩
  else none

variable (t : NumberedDfa)

/-! ### Runs -/

/-- Entry of a state for a character; there is no successor on characters that are not declared. -/
def target? (s : State) (c : Char) : Option (Option Nat) :=
  match t.alphabet.idxOf? c with
  | none => some none
  | some k => s.next[k]?

/-- Successor of a state on a character. -/
def next? (s : State) (c : Char) : Option (Option State) := do
  let target ← t.target? s c
  target.mapM fun j ↦ t.states[j]?

/-- State that is reached from a state by a word, unless the run is stuck. -/
def run? (s : State) : List Char → Option (Option State)
  | [] => some (some s)
  | c :: w => do
    match ← t.next? s c with
    | none => return none
    | some s => run? s w

/-- Whether the run of a word from the initial state ends in a final state. -/
def accepts? (w : List Char) : Option Bool := do
  let s ← t.states[t.initial]?
  let last ← t.run? s w
  return last.elim false State.isFinal

/-! ### Transitions and shortest words -/

/-- Transitions to the listed entries, the first of which belongs to character number `k`: their
characters and the numbers of their targets. -/
def edgesFrom? (a : Alphabet) (k : Nat) : List (Option Nat) → Option (List (Char × Nat))
  | [] => some []
  | none :: next => edgesFrom? a (k + 1) next
  | some j :: next => do
    let c ← a.get? k
    let edges ← edgesFrom? a (k + 1) next
    return (c, j) :: edges

/-- Transitions from a state. -/
def edges? (s : State) : Option (List (Char × Nat)) := edgesFrom? t.alphabet 0 s.next

/-- Transitions from a state with the records of their targets. -/
def transitionsFrom? (s : State) : Option (List (State × Char × State)) := do
  let edges ← t.edges? s
  edges.mapM fun (c, j) ↦ (t.states[j]?).map fun target ↦ (s, c, target)

/-- All transitions: source, character and target. -/
def transitions? : Option (List (State × Char × State)) := do
  let rows ← t.states.mapM t.transitionsFrom?
  return rows.flatten

/-- Transitions from state number `i`, none if they cannot be looked up. -/
def edges (i : Nat) : List (Char × Nat) := ((t.states[i]?).bind t.edges?).getD []

/-- Numbers of the successors of state number `i`, none if there is no such state. -/
def successors (i : Nat) : List Nat := (t.states[i]?).elim [] fun s ↦ s.next.filterMap id

/-- The successors in a numbered automaton are finitely many. -/
theorem bounded_successors : Agenda.Bounded t.successors [t.initial] := by
  refine .of_forall (t.states.flatMap fun s ↦ s.next.filterMap id) (fun i j hj ↦ ?_) _
  unfold successors at hj
  cases hs : t.states[i]? with
  | none =>
    rw [hs] at hj
    cases hj
  | some s =>
    rw [hs] at hj
    exact List.mem_flatMap.mpr ⟨s, List.mem_of_getElem? hs, hj⟩

/-- Transitions lead to the numbers that are listed. -/
theorem snd_mem_of_mem_edgesFrom? {a : Alphabet} {k : Nat} {next : List (Option Nat)}
    {edges : List (Char × Nat)} (h : edgesFrom? a k next = some edges) {e : Char × Nat}
    (he : e ∈ edges) : e.2 ∈ next.filterMap id := by
  induction next generalizing k edges with
  | nil =>
    cases h
    cases he
  | cons target next ih =>
    cases target with
    | none => exact ih h he
    | some j =>
      obtain ⟨c, -, h⟩ := Option.bind_eq_some_iff.mp h
      obtain ⟨rest, hrest, h⟩ := Option.bind_eq_some_iff.mp h
      cases h
      rw [List.filterMap_cons_some (f := id) rfl]
      rcases List.mem_cons.mp he with rfl | he
      · exact List.mem_cons_self
      · exact List.mem_cons_of_mem _ (ih hrest he)

/-- The transitions in a numbered automaton lead to finitely many numbers. -/
theorem bounded_edges : Trail.Bounded t.edges := by
  refine ⟨t.states.flatMap fun s ↦ s.next.filterMap id, fun i e he ↦ ?_⟩
  unfold edges at he
  cases hs : t.states[i]? with
  | none =>
    rw [hs] at he
    cases he
  | some s =>
    rw [hs, Option.bind_some] at he
    refine List.mem_flatMap.mpr ⟨s, List.mem_of_getElem? hs, ?_⟩
    cases hedges : t.edges? s with
    | none =>
      rw [hedges] at he
      cases he
    | some edges =>
      rw [hedges] at he
      exact snd_mem_of_mem_edgesFrom? hedges he

/-- Whether state number `i` is final; no if there is no such state. -/
def isFinal (i : Nat) : Bool := (t.states[i]?).elim false State.isFinal

/-- The first of the shortest accepted words. The search looks up every state that it reaches, with
its transitions, and then the edge by which each state on the path was reached. -/
def shortestWord? : Option (Option (List Char)) :=
  let trail := (Trail.start t.initial).exploreUntil t.isFinal t.edges t.bounded_edges
  if trail.reached.keys.all fun i ↦ ((t.states[i]?).bind t.edges?).isSome then
    match trail.peek? with
    | none => some none
    | some i => (trail.path? i).toOption
  else none

end NumberedDfa

end LanguageTheory
