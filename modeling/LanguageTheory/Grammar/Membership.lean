import LanguageTheory.Grammar.Basic
import LanguageTheory.Search.Agenda

/-!
# Membership

A span records that a nonterminal derives a stretch of a word. The spans of a word are found in
rounds: each round reads every body from every position, using the spans that are known. The start
symbol derives the word when the rounds find its span over the whole word, whatever bodies the
grammar has.

Spec guidance: `SPEC_FULL.md` §12.1.
-/

namespace LanguageTheory.Grammar

/-- A nonterminal and the stretch of a word that it derives. -/
structure Span where
  name : String
  first : Nat
  last : Nat
  deriving DecidableEq, Hashable, Repr

/-- Positions to which a token leads from one of the given positions. -/
def advance (known : Agenda Span) (w : Array Char) (positions : List Nat) : Token → List Nat
  | .terminal c => positions.filterMap fun i ↦ if w[i]? = some c then some (i + 1) else none
  | .nonterminal name =>
    if positions.isEmpty then []
    else (List.range (w.size + 1)).filter fun j ↦
      positions.any fun i ↦ known.contains ⟨name, i, j⟩

/-- Positions to which a body leads from position `i`. -/
def ends (known : Agenda Span) (w : Array Char) (body : Body) (i : Nat) : List Nat :=
  body.foldl (advance known w) [i]

/-- The spans that follow from known ones by one production. -/
def newSpans (g : Grammar) (w : Array Char) (known : Agenda Span) : List Span :=
  g.rules.flatMap fun (head, body) ↦
    (List.range (w.size + 1)).flatMap fun i ↦
      (ends known w body i).map fun j ↦ ⟨head, i, j⟩

/-- A token leads to positions of the word only. -/
theorem le_of_mem_advance {known : Agenda Span} {w : Array Char} {positions : List Nat}
    {t : Token} {j : Nat} (h : j ∈ advance known w positions t) : j ≤ w.size := by
  cases t with
  | terminal c =>
    obtain ⟨i, _, hi⟩ := List.mem_filterMap.1 h
    split at hi
    · next hc =>
      cases hi
      obtain ⟨hlt, _⟩ := Array.getElem?_eq_some_iff.1 hc
      exact hlt
    · cases hi
  | nonterminal name =>
    by_cases hp : positions.isEmpty = true
    · simp [advance, hp] at h
    · simp only [advance, if_neg hp] at h
      have := List.mem_range.1 (List.mem_filter.1 h).1
      omega

/-- A body leads to positions of the word only. -/
theorem le_of_mem_ends {known : Agenda Span} {w : Array Char} {body : Body} {i j : Nat}
    (hi : i ≤ w.size) (h : j ∈ ends known w body i) : j ≤ w.size := by
  have general : ∀ (body : Body) (positions : List Nat), (∀ k ∈ positions, k ≤ w.size) →
      ∀ k ∈ body.foldl (advance known w) positions, k ≤ w.size := by
    intro body
    induction body with
    | nil => exact fun _ hp ↦ hp
    | cons t body ih => exact fun _ _ ↦ ih _ fun _ ↦ le_of_mem_advance
  exact general body [i] (by simpa using hi) j h

/-- The spans of a word are finitely many. -/
theorem bounded_newSpans (g : Grammar) (w : Array Char) :
    Agenda.BoundedRounds (g.newSpans w) := by
  refine ⟨g.rules.flatMap fun (head, _) ↦ (List.range (w.size + 1)).flatMap fun i ↦
    (List.range (w.size + 1)).map fun j ↦ ⟨head, i, j⟩, fun known s hs ↦ ?_⟩
  obtain ⟨⟨head, body⟩, hr, hs⟩ := List.mem_flatMap.1 hs
  obtain ⟨i, hi, hs⟩ := List.mem_flatMap.1 hs
  obtain ⟨j, hj, rfl⟩ := List.mem_map.1 hs
  have hi' := List.mem_range.1 hi
  have hj' := le_of_mem_ends (by omega) hj
  exact List.mem_flatMap.2 ⟨_, hr, List.mem_flatMap.2 ⟨i, hi, List.mem_map.2
    ⟨j, List.mem_range.2 (by omega), rfl⟩⟩⟩

/-- All spans of a word. -/
def spans (g : Grammar) (w : Array Char) : Agenda Span :=
  Agenda.saturate (g.newSpans w) (g.bounded_newSpans w) ∅

/-- Whether a grammar generates a word (§12.1). -/
def accepts (g : Grammar) (w : List Char) : Bool :=
  w.all g.isTerminal && (g.spans w.toArray).contains ⟨g.start, 0, w.length⟩

end LanguageTheory.Grammar
