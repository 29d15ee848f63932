import LanguageTheory.Proofs.AutomatonDraft

/-!
# Paths of drafts

A draft names the states that its transitions join, and the automaton that is made of it numbers
them. Paths by labels and paths by numbers read the same symbols, so a word is accepted exactly when
the characters of a path, from a state that the draft marks as initial to one that it marks as
accepting, spell it.
-/

namespace LanguageTheory

/-! ### Walks along labelled transitions -/

namespace Symbol

/-- Walks along given transitions, with the symbols that they read. -/
inductive Walk {α : Type} (moves : List (α × Symbol × α)) : α → List Symbol → α → Prop where
  | refl (x : α) : Walk moves x [] x
  | step {x y z : α} {s : Symbol} {ss : List Symbol} :
      (x, s, y) ∈ moves → Walk moves y ss z → Walk moves x (s :: ss) z

/-- The characters among symbols, in order. -/
def letters : List Symbol → List Char
  | [] => []
  | .epsilon :: ss => letters ss
  | .char c :: ss => c :: letters ss

end Symbol

open LanguageTheory.Symbol (Walk letters)

namespace Nfa

variable {n : Nfa} {i j : Nat} {w : List Char}

/-- A path spells the characters that a walk along the transitions reads. -/
theorem path_iff_exists_walk : n.Path i w j ↔ ∃ ss, Walk n.transitions i ss j ∧ letters ss = w := by
  constructor
  · intro h
    induction h with
    | refl i => exact ⟨[], .refl i, rfl⟩
    | skip hmove _ ih =>
      obtain ⟨ss, hss, hw⟩ := ih
      exact ⟨.epsilon :: ss, .step hmove hss, hw⟩
    | @read _ _ _ c _ hmove _ ih =>
      obtain ⟨ss, hss, hw⟩ := ih
      exact ⟨.char c :: ss, .step hmove hss, congrArg (c :: ·) hw⟩
  · rintro ⟨ss, hss, rfl⟩
    induction hss with
    | refl i => exact .refl i
    | @step _ _ _ s _ hmove _ ih =>
      cases s with
      | epsilon => exact .skip hmove ih
      | char c => exact .read hmove ih

end Nfa

namespace AutomatonDraft

variable {d : AutomatonDraft} {n : Nfa} {p q : String} {i j : Nat} {ss : List Symbol}

/-- A walk by labels is a walk by numbers. -/
theorem exists_walk_of_labels (h : d.check = .ok n) (hwalk : Walk d.transitions p ss q)
    (hi : n.findLabel? p = some i) :
    ∃ j, n.findLabel? q = some j ∧ Walk n.transitions i ss j := by
  induction hwalk generalizing i with
  | refl p => exact ⟨i, hi, .refl i⟩
  | @step p r q s ss hmove _ ih =>
    obtain ⟨_, k, _, hk⟩ := exists_numbers_of_mem h hmove
    obtain ⟨j, hj, hwalk⟩ := ih hk
    exact ⟨j, hj, .step ((mem_transitions_iff h).mpr ⟨p, r, hmove, hi, hk⟩) hwalk⟩

/-- A walk by numbers is a walk by labels. -/
theorem exists_walk_of_numbers (h : d.check = .ok n) (hwalk : Walk n.transitions i ss j)
    (hi : n.findLabel? p = some i) :
    ∃ q, n.findLabel? q = some j ∧ Walk d.transitions p ss q := by
  induction hwalk generalizing p with
  | refl i => exact ⟨p, hi, .refl p⟩
  | step hmove _ ih =>
    obtain ⟨source, r, hlisted, hsource, hr⟩ := (mem_transitions_iff h).mp hmove
    have hp : source = p := OrderedSet.eq_of_idxOf?_eq_some hsource hi
    subst hp
    obtain ⟨q, hq, hwalk⟩ := ih hr
    exact ⟨q, hq, .step hlisted hwalk⟩

/-- A path from an initial to an accepting state goes by labels as by numbers. -/
theorem exists_walk_iff (h : d.check = .ok n) :
    (∃ i ∈ n.initial, ∃ j ∈ n.accepting, Walk n.transitions i ss j) ↔
      ∃ p ∈ d.initial, ∃ q ∈ d.accepting, Walk d.transitions p ss q := by
  constructor
  · rintro ⟨i, hi, j, hj, hwalk⟩
    obtain ⟨p, hp, hpi⟩ := (mem_initial_iff h).mp hi
    obtain ⟨q, hq, hqj⟩ := (mem_accepting_iff h).mp hj
    obtain ⟨r, hrj, hwalk⟩ := exists_walk_of_numbers h hwalk hpi
    have hr : r = q := OrderedSet.eq_of_idxOf?_eq_some hrj hqj
    exact ⟨p, hp, q, hq, hr ▸ hwalk⟩
  · rintro ⟨p, hp, q, hq, hwalk⟩
    obtain ⟨i, hi, hpi⟩ := (label_mem_initial_iff h).mp hp
    obtain ⟨j, hj, hwalk⟩ := exists_walk_of_labels h hwalk hpi
    exact ⟨i, hi, j, (mem_accepting_iff h).mpr ⟨q, hq, hj⟩, hwalk⟩

/-- The automaton of a draft accepts a word when the characters on some path from an initial to an
accepting state spell it, along its own transitions or along those that the draft lists. -/
theorem accepts_iff_walk_of_toNfa (h : d.toNfa = .ok n) (w : List Char) :
    (n.accepts w = true ↔ ∃ ss, letters ss = w ∧
      ∃ i ∈ n.initial, ∃ j ∈ n.accepting, Walk n.transitions i ss j) ∧
    (n.accepts w = true ↔ ∃ ss, letters ss = w ∧
      ∃ p ∈ d.initial, ∃ q ∈ d.accepting, Walk d.transitions p ss q) := by
  have hcheck := (toNfa_eq_ok_iff.mp h).1
  have hwalk : n.accepts w = true ↔ ∃ ss, letters ss = w ∧
      ∃ i ∈ n.initial, ∃ j ∈ n.accepting, Walk n.transitions i ss j := by
    rw [Nfa.accepts_iff_spells (readsDeclared_of_check hcheck)]
    constructor
    · rintro ⟨i, hi, j, hj, hpath⟩
      obtain ⟨ss, hss, hw⟩ := Nfa.path_iff_exists_walk.mp hpath
      exact ⟨ss, hw, i, hi, j, hj, hss⟩
    · rintro ⟨ss, hw, i, hi, j, hj, hss⟩
      exact ⟨i, hi, j, hj, Nfa.path_iff_exists_walk.mpr ⟨ss, hss, hw⟩⟩
  refine ⟨hwalk, hwalk.trans (exists_congr fun ss ↦ and_congr_right fun _ ↦ ?_)⟩
  exact exists_walk_iff hcheck

/-- A draft of the automaton whose first two states reach each other without reading anything. -/
def loops : AutomatonDraft where
  alphabet := ['a', 'b']
  states := ["first", "second", "third"]
  initial := ["first", "third"]
  accepting := ["second"]
  transitions := [("first", .epsilon, "second"), ("second", .epsilon, "first"),
    ("second", .char 'a', "third"), ("third", .char 'b', "first"), ("third", .char 'b', "third")]

/-- A walk that takes the first transition twice spells `abb`, so the automaton of the draft accepts
this word. -/
theorem accepts_iff_walk_of_toNfa_loops :
    loops.toNfa = .ok Nfa.loops ∧ Nfa.loops.accepts ['a', 'b', 'b'] = true := by
  have h : loops.toNfa = .ok Nfa.loops := rfl
  have hwalk : Walk loops.transitions "first"
      [.epsilon, .char 'a', .char 'b', .char 'b', .epsilon] "second" :=
    .step (y := "second") (by decide) <| .step (y := "third") (by decide) <|
      .step (y := "third") (by decide) <| .step (y := "first") (by decide) <|
        .step (y := "second") (by decide) <| .refl "second"
  exact ⟨h, (accepts_iff_walk_of_toNfa h ['a', 'b', 'b']).2.mpr
    ⟨_, rfl, "first", by decide, "second", by decide, hwalk⟩⟩

end AutomatonDraft

end LanguageTheory
