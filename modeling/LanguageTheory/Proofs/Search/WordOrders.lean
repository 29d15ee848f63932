import LanguageTheory.Search.Trail
import Mathlib.Data.List.Induction
import Mathlib.Data.List.Shortlex
import Mathlib.Logic.Relation

/-!
# Orders of words in a search

A breadth-first search takes paths in an order that can be told from their labels, if continued
words are in the order of what they continue and the edges of every node are in the order of their
labels. The order by length, and by the labels of words of one length, is such an order.
-/

namespace LanguageTheory.Trail

universe u v

variable {α : Type u} {β : Type v} {edges : α → List (β × α)}

/-! ### Orders that a search follows -/

/-- An order of words that a breadth-first search follows: continued words are in the order of what
they continue, and words that continue one word are in the order of the edges. -/
structure Ranking (before : List β → List β → Prop) (edges : α → List (β × α)) : Prop where
  trans : ∀ {u v w}, before u v → before v w → before u w
  before_concat : ∀ u b, before u (u ++ [b])
  concat : ∀ {u v}, before u v → ∀ b c, before (u ++ [b]) (v ++ [c])
  pairwise : ∀ u x, (edges x).Pairwise fun e f ↦ before (u ++ [e.1]) (u ++ [f.1])

namespace Ranking

variable {before : List β → List β → Prop} (R : Ranking before edges) {u v w : List β}

include R

/-- The empty word comes first. -/
theorem nil_before (u : List β) (b : β) : before [] (u ++ [b]) := by
  induction u using List.reverseRecOn generalizing b with
  | nil => exact R.before_concat [] b
  | append_singleton u a ih => exact R.trans (ih a) (R.before_concat (u ++ [a]) b)

/-- A word that does not come later than another one does not come later than what follows it. -/
theorem reflGen_trans (huv : Relation.ReflGen before u v) (hvw : Relation.ReflGen before v w) :
    Relation.ReflGen before u w := by
  cases huv with
  | refl => exact hvw
  | single huv =>
    cases hvw with
    | refl => exact .single huv
    | single hvw => exact .single (R.trans huv hvw)

/-- Words that are continued alike stay in order. -/
theorem reflGen_concat (h : Relation.ReflGen before u v) (b : β) :
    Relation.ReflGen before (u ++ [b]) (v ++ [b]) := by
  cases h with
  | refl => exact .refl
  | single h => exact .single (R.concat h b b)

end Ranking

/-! ### Shorter words first -/

/-- A breadth-first search follows the order of words by their lengths alone. -/
theorem Ranking.length (edges : α → List (β × α)) :
    Ranking (fun u v ↦ u.length ≤ v.length) edges := by
  constructor
  · intro u v w huv hvw
    exact Nat.le_trans huv hvw
  · intro u b
    simp
  · intro u v huv b c
    simpa using huv
  · intro u x
    simp [List.pairwise_iff_getElem]

/-- Words of one length stay in order when they are continued. -/
theorem lex_append_of_length_eq {r : β → β → Prop} {u v : List β} (h : List.Lex r u v)
    (hlength : u.length = v.length) (s t : List β) : List.Lex r (u ++ s) (v ++ t) := by
  induction h with
  | nil => cases hlength
  | cons _ ih => exact .cons (ih (Nat.succ.inj hlength))
  | rel hab => exact .rel hab

/-- A breadth-first search follows the order of words by their length and by the order of their
labels, if edges are listed in the order of their labels. -/
theorem Ranking.shortlex {r : β → β → Prop} (htrans : ∀ {a b c}, r a b → r b c → r a c)
    (hedges : ∀ x, (edges x).Pairwise fun e f ↦ r e.1 f.1) : Ranking (List.Shortlex r) edges := by
  constructor
  · intro u v w huv hvw
    rw [List.shortlex_def] at *
    rcases huv with huv | ⟨huv, hlex⟩
    · left
      omega
    · rcases hvw with hvw | ⟨hvw, hlex'⟩
      · left
        omega
      · exact .inr ⟨huv.trans hvw, List.lex_trans htrans hlex hlex'⟩
  · intro u b
    exact .of_length_lt (by simp)
  · intro u v huv b c
    rw [List.shortlex_def] at huv
    rcases huv with huv | ⟨huv, hlex⟩
    · exact .of_length_lt (by simpa using huv)
    · exact .of_lex (by simpa using huv) (lex_append_of_length_eq hlex huv [b] [c])
  · intro u x
    refine (hedges x).imp fun hr ↦ List.Shortlex.append_left ?_ u
    rwa [List.shortlex_singleton_iff]

end LanguageTheory.Trail
