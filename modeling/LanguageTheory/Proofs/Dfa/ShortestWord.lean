import LanguageTheory.Proofs.Dfa.Reachability
import LanguageTheory.Proofs.Search.ShortestPaths

/-!
# Shortest words

The search for a shortest word meets states in the order of the first words that lead to them, where
shorter words come first and words of one length are in the order that the alphabet gives to them.
The word that it finds is the first of all accepted words.
-/

namespace LanguageTheory

/-- Whether a character stands before another one in an alphabet. -/
def Alphabet.Earlier (a : Alphabet) (b c : Char) : Prop := a.toList.idxOf b < a.toList.idxOf c

instance (a : Alphabet) : DecidableRel a.Earlier :=
  fun b c ↦ inferInstanceAs (Decidable (a.toList.idxOf b < a.toList.idxOf c))

instance (a : Alphabet) : Std.Asymm a.Earlier := ⟨fun _ _ ↦ Nat.lt_asymm⟩

/-- An alphabet lists its characters in their order. -/
theorem Alphabet.pairwise_earlier (a : Alphabet) : a.toList.Pairwise a.Earlier := by
  have hnodup : a.toList.Nodup := a.chars.nodup
  rw [List.pairwise_iff_getElem]
  intro i j hi hj hij
  rwa [Alphabet.Earlier, hnodup.idxOf_getElem, hnodup.idxOf_getElem]

namespace Dfa

variable {d : Dfa} {i j : Nat} {w : List Char}

/-! ### The order of words -/

/-- The edges of a state are listed in the order of their characters. -/
theorem pairwise_edges (d : Dfa) (i : Nat) :
    (d.edges i).Pairwise fun e f ↦ d.alphabet.Earlier e.1 f.1 := by
  unfold edges
  split
  · exact .nil
  · next s _ =>
    have hzip : (d.alphabet.toList.zip s.next).Pairwise fun p q ↦ d.alphabet.Earlier p.1 q.1 := by
      rw [List.pairwise_iff_getElem]
      intro k m hk hm hkm
      rw [List.getElem_zip, List.getElem_zip]
      exact List.pairwise_iff_getElem.mp d.alphabet.pairwise_earlier k m _ _ hkm
    refine hzip.filterMap _ ?_
    rintro ⟨b, t⟩ ⟨c, t'⟩ hbc e he f hf
    obtain ⟨j, _, rfl⟩ := Option.map_eq_some_iff.mp he
    obtain ⟨k, _, rfl⟩ := Option.map_eq_some_iff.mp hf
    exact hbc

/-- The search for a shortest word follows the order that the alphabet gives to words. -/
theorem ranking_shortlex (d : Dfa) : Trail.Ranking (List.Shortlex d.alphabet.Earlier) d.edges :=
  .shortlex Nat.lt_trans d.pairwise_edges

/-- Walks along the edges are runs. -/
theorem walk_edges_iff : Trail.Walk d.edges i w j ↔ d.run i w = some j := by
  constructor
  · intro h
    induction h with
    | refl => rfl
    | step he _ ih =>
      rw [run_cons, mem_edges_iff.mp he]
      exact ih
  · intro h
    induction w generalizing i with
    | nil =>
      cases h
      exact .refl _
    | cons c w ih =>
      rw [run_cons] at h
      obtain ⟨k, hk, h⟩ := Option.bind_eq_some_iff.mp h
      exact .step (mem_edges_iff.mpr hk) (ih h)

/-! ### Accepted words -/

/-- The states that are found are not final when no word is accepted. -/
theorem isEmpty_iff : d.isEmpty = true ↔ ∀ w, d.accepts w = false := by
  rw [isEmpty, List.all_eq_true]
  constructor
  · intro h w
    rw [← Bool.not_eq_true, accepts_iff]
    rintro ⟨j, hj, hfinal⟩
    have hnot := h j (mem_reachable_iff.mpr ⟨w, hj⟩)
    rw [hfinal] at hnot
    cases hnot
  · intro h i hi
    obtain ⟨w, hw⟩ := mem_reachable_iff.mp hi
    have hword := h w
    rw [← Bool.not_eq_true, accepts_iff] at hword
    rw [Bool.not_eq_true', ← Bool.not_eq_true]
    exact fun hfinal ↦ hword ⟨i, hw, hfinal⟩

/-! ### The first word -/

/-- Whether a word is accepted and no accepted word comes before it: none is shorter, and none of
the same length is earlier in the order that the alphabet gives to words. -/
def IsFirstWord (d : Dfa) (w : List Char) : Prop :=
  d.accepts w = true ∧ ∀ v, d.accepts v = true →
    w.length ≤ v.length ∧ (v.length = w.length → ¬ List.Lex d.alphabet.Earlier v w)

/-- A word is the first accepted one if the order by length and alphabet says so. -/
theorem isFirstWord_of_reflGen (hw : d.accepts w = true)
    (hfirst : ∀ v, d.accepts v = true → Relation.ReflGen (List.Shortlex d.alphabet.Earlier) w v) :
    d.IsFirstWord w := by
  refine ⟨hw, fun v hv ↦ ?_⟩
  cases hfirst v hv with
  | refl => exact ⟨Nat.le_refl _, fun _ ↦ irrefl w⟩
  | single hwv =>
    rw [List.shortlex_def] at hwv
    rcases hwv with hlt | ⟨heq, hlex⟩
    · refine ⟨Nat.le_of_lt hlt, fun h ↦ ?_⟩
      omega
    · exact ⟨Nat.le_of_eq heq, fun _ ↦ asymm hlex⟩

/-- The first accepted word does not come after an accepted word. -/
theorem IsFirstWord.eq_of_reflGen {v : List Char} (hv : d.IsFirstWord v) (hw : d.accepts w = true)
    (hwv : Relation.ReflGen (List.Shortlex d.alphabet.Earlier) w v) : v = w := by
  obtain ⟨hle, hlex⟩ := hv.2 w hw
  cases hwv with
  | refl => rfl
  | single hwv =>
    rw [List.shortlex_def] at hwv
    rcases hwv with hlt | ⟨heq, h⟩
    · omega
    · exact absurd h (hlex heq)

/-- The search finds nothing when no word is accepted, and the first accepted word otherwise. -/
theorem shortestWord?_cases (d : Dfa) :
    (d.shortestWord? = none ∧ ∀ w, d.accepts w = false) ∨
    ∃ w, d.shortestWord? = some w ∧ d.accepts w = true ∧
      ∀ v, d.accepts v = true → Relation.ReflGen (List.Shortlex d.alphabet.Earlier) w v := by
  rcases Trail.pathToGoal?_cases d.bounded_edges d.ranking_shortlex d.isFinal d.initial with
    ⟨hnone, hall⟩ | ⟨w, j, hsome, hw, hfinal, hfirst⟩
  · refine .inl ⟨hnone, fun w ↦ ?_⟩
    rw [← Bool.not_eq_true, accepts_iff]
    rintro ⟨j, hj, hfinal⟩
    rw [hall w j (walk_edges_iff.mpr hj)] at hfinal
    cases hfinal
  · refine .inr ⟨w, hsome, accepts_iff.mpr ⟨j, walk_edges_iff.mp hw, hfinal⟩, fun v hv ↦ ?_⟩
    obtain ⟨k, hk, hk'⟩ := accepts_iff.mp hv
    exact hfirst v k (walk_edges_iff.mpr hk) hk'

/-- The search finds a word unless the automaton is empty, and it finds the first accepted word. -/
theorem shortestWord_isFirst (d : Dfa) :
    (d.shortestWord? = none ↔ ∀ w, d.accepts w = false) ∧
    (d.shortestWord? = none ↔ d.isEmpty = true) ∧
    ∀ w, d.shortestWord? = some w ↔ d.IsFirstWord w := by
  rcases d.shortestWord?_cases with ⟨hnone, hall⟩ | ⟨w, hsome, hw, hfirst⟩
  · refine ⟨iff_of_true hnone hall, iff_of_true hnone (isEmpty_iff.mpr hall), fun v ↦ ?_⟩
    have hv : ¬ d.IsFirstWord v := fun hv ↦ by
      have haccepts := hv.1
      rw [hall v] at haccepts
      cases haccepts
    simp [hnone, hv]
  · have hne : ¬ ∀ v, d.accepts v = false := fun hall ↦ by
      rw [hall w] at hw
      cases hw
    have hword : d.IsFirstWord w := isFirstWord_of_reflGen hw hfirst
    rw [hsome]
    refine ⟨iff_of_false (Option.some_ne_none w) hne,
      iff_of_false (Option.some_ne_none w) (mt isEmpty_iff.mp hne),
      fun v ↦ ⟨fun h ↦ ?_, fun hv ↦ ?_⟩⟩
    · cases h
      exact hword
    · rw [hv.eq_of_reflGen hw (hfirst v hv.1)]

/-- Of the accepted words `ab` and `ba` the second is found over an alphabet where `b` stands before
`a`. -/
example : shortestWord?
    { alphabet := .ofSet (.ofList ['b', 'a'])
      states := #[⟨"start", false, [some 1, some 2]⟩, ⟨"b", false, [none, some 3]⟩,
        ⟨"a", false, [some 3, none]⟩, ⟨"end", true, [none, none]⟩]
      initial := 0 } = some ['b', 'a'] := by cbv

end Dfa

end LanguageTheory
