import LanguageTheory.Search.Agenda

/-!
# Calls on a queue

The operations of an agenda as calls that it answers, one after the other.

Spec guidance: `SPEC_FULL.md` §§4.2, 11.4.
-/

namespace LanguageTheory.Agenda

universe u

/-- A call on a queue. -/
inductive Call (α : Type u) where
  | push (x : α)
  | pushMany (xs : List α)
  | intern (x : α)
  | pop
  deriving DecidableEq, Repr

/-- What a queue answers: whether a pushed item is new, nothing for several items, the place of an
item, or the item that is taken out, if one waits. -/
inductive Answer (α : Type u) where
  | isNew (new : Bool)
  | done
  | place (i : Nat)
  | item (x? : Option α)
  deriving DecidableEq, Repr

variable {α : Type u} [DecidableEq α] [Hashable α]

/-- Carries out one call. -/
def perform (q : Agenda α) : Call α → Answer α × Agenda α
  | .push x => (q.offer x).map .isNew id
  | .pushMany xs => (.done, q.pushMany xs)
  | .intern x => (q.intern x).map .place id
  | .pop =>
    match q.pop? with
    | none => (.item none, q)
    | some (x, rest) => (.item (some x), rest)

/-- Carries out calls one after the other. -/
def performAll (q : Agenda α) : List (Call α) → List (Answer α) × Agenda α
  | [] => ([], q)
  | call :: calls =>
    let (answer, r) := q.perform call
    let (answers, s) := r.performAll calls
    (answer :: answers, s)

end LanguageTheory.Agenda
