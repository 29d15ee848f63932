import LanguageTheory.Nfa.Basic

/-!
# Paths of an automaton

A path follows transitions one after the other; the characters that they read spell a word. An
automaton spells a word when a path with this word leads from an initial to an accepting state.
Following all paths at once, by sets of states, is the business of `Nfa.accepts`.

Spec guidance: `SPEC_FULL.md` §3.
-/

namespace LanguageTheory.Nfa

/-- Paths from one state to another, with the words that they spell. -/
inductive Path (n : Nfa) : Nat → List Char → Nat → Prop where
  | refl (i : Nat) : Path n i [] i
  | skip {i j k : Nat} {w : List Char} :
      (i, Symbol.epsilon, j) ∈ n.transitions → Path n j w k → Path n i w k
  | read {i j k : Nat} {c : Char} {w : List Char} :
      (i, Symbol.char c, j) ∈ n.transitions → Path n j w k → Path n i (c :: w) k

/-- A path with a word leads from an initial to an accepting state. -/
def Spells (n : Nfa) (w : List Char) : Prop :=
  ∃ i ∈ n.initial, ∃ j ∈ n.accepting, n.Path i w j

/-- The listed transitions are those of the transition relation. -/
theorem mem_transitions {n : Nfa} {i j : Nat} {s : Symbol} :
    (i, s, j) ∈ n.transitions ↔ ∃ targets, n.targets? i s = some targets ∧ j ∈ targets := by
  unfold transitions targets?
  constructor
  · intro h
    obtain ⟨⟨⟨i', s'⟩, targets⟩, he, ht⟩ := List.mem_flatMap.1 h
    obtain ⟨j', hj, heq⟩ := List.mem_map.1 ht
    cases heq
    exact ⟨targets, Table.get?_eq_some_iff.2 he, hj⟩
  · rintro ⟨targets, ht, hj⟩
    exact List.mem_flatMap.2 ⟨((i, s), targets), Table.get?_eq_some_iff.1 ht,
      List.mem_map.2 ⟨j, hj, rfl⟩⟩

/-- One step from a set of states leads to the targets of its transitions. -/
theorem mem_step {n : Nfa} {s : Symbol} {states : OrderedSet Nat} {j : Nat} :
    j ∈ n.step s states ↔ ∃ i ∈ states, (i, s, j) ∈ n.transitions := by
  rw [step, OrderedSet.mem_unionAll]
  constructor
  · rintro ⟨targets, ht, hj⟩
    obtain ⟨i, hi, ht⟩ := List.mem_filterMap.1 ht
    exact ⟨i, hi, mem_transitions.2 ⟨targets, ht, hj⟩⟩
  · rintro ⟨i, hi, h⟩
    obtain ⟨targets, ht, hj⟩ := mem_transitions.1 h
    exact ⟨targets, List.mem_filterMap.2 ⟨i, hi, ht⟩, hj⟩

/-- Two paths one after the other are a path. -/
theorem Path.append {n : Nfa} {i j k : Nat} {u v : List Char} (huv : n.Path i u j)
    (hvw : n.Path j v k) : n.Path i (u ++ v) k := by
  induction huv with
  | refl _ => exact hvw
  | skip h _ ih => exact .skip h (ih hvw)
  | read h _ ih => exact .read h (ih hvw)

end LanguageTheory.Nfa
