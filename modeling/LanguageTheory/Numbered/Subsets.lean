import LanguageTheory.Nfa.Conversions
import LanguageTheory.Numbered.Basic

/-!
# Sets of states that are numbered as they are met

The automaton of sets of states in one loop. A queue hands the sets out one after the other, and a
set has the number under which the queue took it in. So the successors of a set are numbered while
the set is worked on, before they are handed out themselves. The labels of the elements of a set are
looked up, which gives `none` if one of them has no label.

Spec guidance: `SPEC_FULL.md` §§4.2, 11.1, 13.
-/

namespace LanguageTheory.Nfa

open NumberedDfa (State assemble?)

/-- Numbers of the sets that follow a set on some characters; those that are new are taken into the
queue. -/
def internSuccessors (n : Nfa) (subset : List Nat) (q : Agenda (List Nat)) :
    List Char → List (Option Nat) × Agenda (List Nat)
  | [] => ([], q)
  | c :: cs =>
    match n.subsetNext? subset c with
    | none =>
      let (row, r) := n.internSuccessors subset q cs
      (none :: row, r)
    | some next =>
      let (k, grown) := q.intern next
      let (row, r) := n.internSuccessors subset grown cs
      (some k :: row, r)

/-- The record of a set of states with its number, the labels of all its elements and the numbers of
its successors. -/
def subsetRecord? (n : Nfa) (subset : List Nat) (k : Nat) (row : List (Option Nat)) :
    Option State := do
  let labels ← subset.mapM n.labels.get?
  return {
    id := k
    label := "\x7b" ++ String.intercalate "," labels ++ "\x7d"
    isFinal := subset.any n.isAccepting
    next := row }

/-- Interning the sets that follow a set on some characters admits them. -/
theorem snd_internSuccessors_eq_pushMany (n : Nfa) (subset : List Nat) (q : Agenda (List Nat))
    (cs : List Char) :
    (n.internSuccessors subset q cs).2 = q.pushMany (cs.filterMap (n.subsetNext? subset)) := by
  induction cs generalizing q with
  | nil => rfl
  | cons c cs ih =>
    rw [internSuccessors]
    cases hnext : n.subsetNext? subset c with
    | none => rw [List.filterMap_cons_none hnext, ← ih]
    | some next =>
      rw [List.filterMap_cons_some hnext]
      exact (ih _).trans (congrArg (Agenda.pushMany · _) (Agenda.snd_intern q next))

/-- Interning the sets that follow a set admits them. -/
theorem snd_internSuccessors (n : Nfa) (subset : List Nat) (q : Agenda (List Nat)) :
    (n.internSuccessors subset q n.alphabet.toList).2 = q.pushMany (n.subsetSuccessors subset) :=
  n.snd_internSuccessors_eq_pushMany subset q n.alphabet.toList

/-- Hands the waiting sets out and appends their records to those that are made. -/
def recordSubsets? (n : Nfa) (q : Agenda (List Nat))
    (inside : ∀ subset ∈ q.visited, subset ∈ n.bounded_subsetSuccessors.choose)
    (records : List State) : Option (List State) :=
  match h : q.pop? with
  | none => some records
  | some (subset, rest) =>
    let interned := n.internSuccessors subset rest n.alphabet.toList
    have inside' : ∀ next ∈ interned.2.visited, next ∈ n.bounded_subsetSuccessors.choose := by
      rw [snd_internSuccessors]
      exact n.bounded_subsetSuccessors.inside_pushMany h inside
    match n.subsetRecord? subset records.length interned.1 with
    | none => none
    | some record => n.recordSubsets? interned.2 inside' (records ++ [record])
termination_by (n.bounded_subsetSuccessors.choose.countP fun x ↦ !q.contains x, q.size)
decreasing_by
  rw [snd_internSuccessors]
  exact n.bounded_subsetSuccessors.lex_pushMany h inside

/-- The numbered automaton of the reachable sets of states (§4.2). -/
def toNumbered? (n : Nfa) : Option NumberedDfa := do
  let inside := fun subset h ↦
    n.bounded_subsetSuccessors.choose_spec.1 subset (Agenda.mem_visited_ofList.1 h)
  let records ← n.recordSubsets? (.ofList [n.start.sorted]) inside []
  assemble? n.alphabet records 0

end LanguageTheory.Nfa
