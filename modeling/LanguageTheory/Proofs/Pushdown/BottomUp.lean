import LanguageTheory.Pushdown.Recognizers
import LanguageTheory.Proofs.Grammar.LeftRecursion
import LanguageTheory.Proofs.Grammar.Membership
import LanguageTheory.Proofs.Pushdown.Runs
import Mathlib.Data.List.Induction

/-!
# The bottom-up recognizer

While it works, the bottom-up recognizer holds a form above the bottom marker, its last token on
top, and the form yields what has been read. No token of a form that is needed yields the empty
word, so the form is never longer than what has been read, and only the empty word leaves the
bottom marker alone.
-/

namespace LanguageTheory.Grammar

open Pushdown (StackSymbol Transition Configuration)

/-! ### Stacks -/

/-- The stack that holds a form above the bottom marker, the last token on top. -/
def pile (form : Body) : List StackSymbol :=
  (form.map Token.toStackSymbol).reverse ++ [.bottom]

/-- A pile is higher than its form by the bottom marker. -/
theorem length_pile (form : Body) : (pile form).length = form.length + 1 := by
  simp [pile]

/-- A form is piled up on the forms before it. -/
theorem pile_append (before form : Body) :
    pile (before ++ form) = (form.map Token.toStackSymbol).reverse ++ pile before := by
  simp [pile]

/-- The token on top of a pile is the last one of its form. -/
theorem exists_of_pile_eq_cons {form : Body} {t : Token} {rest : List StackSymbol}
    (h : pile form = t.toStackSymbol :: rest) :
    ∃ before, form = before ++ [t] ∧ pile before = rest := by
  induction form using List.reverseRecOn with
  | nil =>
    obtain ⟨hbottom, _⟩ := List.cons.inj h
    cases t with
    | terminal c => cases hbottom
    | nonterminal name => cases hbottom
  | append_singleton before s _ =>
    rw [pile_append] at h
    obtain ⟨hs, hrest⟩ := List.cons.inj h
    rw [Token.toStackSymbol_injective hs]
    exact ⟨before, rfl, hrest⟩

/-- A body on top of a pile is the end of its form. -/
theorem exists_of_pile_eq_append {form body : Body} {rest : List StackSymbol}
    (h : pile form = (body.map Token.toStackSymbol).reverse ++ rest) :
    ∃ before, form = before ++ body ∧ pile before = rest := by
  induction body using List.reverseRecOn generalizing form with
  | nil => exact ⟨form, (List.append_nil form).symm, h⟩
  | append_singleton body t ih =>
    rw [List.map_append, List.reverse_append] at h
    obtain ⟨front, rfl, hfront⟩ := exists_of_pile_eq_cons h
    obtain ⟨before, rfl, hrest⟩ := ih hfront
    exact ⟨before, List.append_assoc before body [t], hrest⟩

/-- The bottom marker is on top of the empty form only, with nothing below it. -/
theorem pile_eq_bottom_cons {form : Body} {rest : List StackSymbol}
    (h : pile form = .bottom :: rest) : form = [] ∧ rest = [] := by
  induction form using List.reverseRecOn with
  | nil =>
    obtain ⟨_, hrest⟩ := List.cons.inj h
    exact ⟨rfl, hrest.symm⟩
  | append_singleton before t _ =>
    rw [pile_append] at h
    obtain ⟨ht, _⟩ := List.cons.inj h
    cases t with
    | terminal c => cases ht
    | nonterminal name => cases ht

/-- A configuration of the recognizer at work. -/
def workingAt (input : List Char) (form : Body) : Configuration := ⟨0, input, pile form⟩

/-- A configuration after the recognizer has finished. -/
def finishedAt (input : List Char) : Configuration := ⟨1, input, []⟩

/-! ### Transitions -/

/-- The transitions shift a terminal, reduce a body to its head, or finish: with the start symbol
alone above the bottom or, if the start symbol has the empty body, with the bottom alone. -/
theorem mem_transitions_toBottomUp_iff {g : Grammar} {t : Transition} :
    t ∈ g.toBottomUp.transitions ↔
      (∃ c ∈ g.terminals, t = ⟨0, some c, [], 0, [.terminal c]⟩) ∨
      (∃ head, ∃ body ∈ g.toProper.bodies head, body ≠ [] ∧
        t = ⟨0, none, (body.map Token.toStackSymbol).reverse, 0, [.nonterminal head]⟩) ∨
      t = ⟨0, none, [.nonterminal g.toProper.start, .bottom], 1, []⟩ ∨
      [] ∈ g.toProper.bodies g.toProper.start ∧ t = ⟨0, none, [.bottom], 1, []⟩ := by
  unfold toBottomUp
  simp only [List.mem_append, or_assoc]
  rw [List.mem_map, List.mem_map, List.mem_singleton]
  refine or_congr ?_ (or_congr ?_ (or_congr_right ?_))
  · constructor
    · rintro ⟨c, hc, rfl⟩
      exact ⟨c, hc, rfl⟩
    · rintro ⟨c, hc, rfl⟩
      exact ⟨c, hc, rfl⟩
  · constructor
    · rintro ⟨⟨head, body⟩, hr, rfl⟩
      obtain ⟨hr, hne⟩ := List.mem_filter.mp hr
      exact ⟨head, body, mem_rules_iff.mp hr, by simpa using hne, rfl⟩
    · rintro ⟨head, body, hb, hne, rfl⟩
      exact ⟨(head, body), List.mem_filter.mpr ⟨mem_rules_iff.mpr hb, by simpa using hne⟩, rfl⟩
  · split
    · next h => simp [List.contains_iff_mem.mp h]
    · next h => simpa using fun hb ↦ absurd (List.contains_iff_mem.mpr hb) h

/-! ### What has been read -/

/-- Where runs on a word can be: at work with a form that yields what has been read, or finished
after a word of the start symbol. -/
inductive Reaches (g : Grammar) (w : List Char) : Configuration → Prop where
  | working {read input : List Char} {form : Body} :
      w = read ++ input → g.toProper.productions.Yields form read →
        Reaches g w (workingAt input form)
  | finished {read input : List Char} :
      w = read ++ input → g.toProper.productions.Language g.toProper.start read →
        Reaches g w (finishedAt input)

/-- A terminal that is shifted yields itself. -/
theorem yields_shift {p : Productions} {form : Body} {read : List Char} {c : Char}
    (h : p.Yields form read) : p.Yields (form ++ [.terminal c]) (read ++ [c]) :=
  Productions.yields_iff_spells.mpr
    ((Productions.yields_iff_spells.mp h).append (.terminal c .nil))

/-- The head of a body yields what the body yields. -/
theorem yields_reduce {p : Productions} {head : String} {before body : Body} {read : List Char}
    (hb : body ∈ p.bodies head) (h : p.Yields (before ++ body) read) :
    p.Yields (before ++ [.nonterminal head]) read := by
  rw [Productions.yields_iff_spells] at h ⊢
  obtain ⟨u, v, rfl, hu, hv⟩ := Spells.append_iff.mp h
  exact hu.append (Spells.single_iff.mpr (Productions.language_of_spells hb hv))

section Runs

variable {g : Grammar} {height : Nat} {w : List Char}

/-- A transition leads from where a run can be to where it can be. -/
theorem Reaches.step {t : Transition} {c d : Configuration} (ht : t ∈ g.toBottomUp.transitions)
    (hfire : t.fire? c = some d) (h : Reaches g w c) : Reaches g w d := by
  obtain ⟨input, rest, hc, rfl⟩ := Transition.fire?_eq_some_iff.mp hfire
  have ht := mem_transitions_toBottomUp_iff.mp ht
  cases h with
  | @working read _ form hw hform =>
    rw [workingAt, Configuration.mk.injEq] at hc
    obtain ⟨_, rfl, hstack⟩ := hc
    rcases ht with ⟨a, _, rfl⟩ | ⟨head, body, hb, _, rfl⟩ | rfl | ⟨hb, rfl⟩
    · -- Shift: the terminal yields the character that is read.
      have hstack : pile form = rest := hstack
      subst hstack
      have hnext : pile (form ++ [.terminal a]) = .terminal a :: pile form := pile_append form _
      have hw : w = (read ++ [a]) ++ input := by
        rw [hw, List.append_assoc]
        rfl
      rw [List.singleton_append, ← hnext]
      exact .working hw (yields_shift hform)
    · -- Reduce: the head yields what the body yields.
      obtain ⟨before, rfl, rfl⟩ := exists_of_pile_eq_append hstack
      have hnext : pile (before ++ [.nonterminal head]) = .nonterminal head :: pile before :=
        pile_append before _
      rw [List.singleton_append, ← hnext]
      exact .working hw (yields_reduce hb hform)
    · obtain ⟨before, rfl, hbefore⟩ := exists_of_pile_eq_cons
        (t := .nonterminal g.toProper.start) hstack
      obtain ⟨rfl, rfl⟩ := pile_eq_bottom_cons hbefore
      exact .finished hw (Spells.single_iff.mp (Productions.yields_iff_spells.mp hform))
    · obtain ⟨rfl, rfl⟩ := pile_eq_bottom_cons hstack
      exact .finished hw ⟨[], hb, hform⟩
  | finished =>
    -- No transition leaves the final state.
    rw [finishedAt, Configuration.mk.injEq] at hc
    rcases ht with ⟨a, _, rfl⟩ | ⟨head, body, _, _, rfl⟩ | rfl | ⟨_, rfl⟩ <;> cases hc.1

/-- Runs lead to where runs can be. -/
theorem Reaches.run {c d : Configuration} (hrun : g.toBottomUp.Run height c d)
    (h : Reaches g w c) : Reaches g w d := by
  induction hrun with
  | refl => exact h
  | step ht hfire _ _ ih => exact ih (h.step ht hfire)

/-- A run on a word begins where runs can be. -/
theorem reaches_start (g : Grammar) (w : List Char) : Reaches g w (g.toBottomUp.start w) :=
  .working (List.nil_append w).symm (.nil : g.toProper.productions.Yields [] [])

/-- A run that has finished has read a word of the start symbol. -/
theorem exists_of_reaches_finished {c : Configuration} (h : Reaches g w c) (hc : c.state = 1) :
    ∃ read, w = read ++ c.input ∧ g.toProper.productions.Language g.toProper.start read := by
  cases h with
  | working => cases hc
  | finished hw hread => exact ⟨_, hw, hread⟩

/-- The bottom is alone only before anything is read. -/
theorem eq_nil_of_reaches_bottom {read input : List Char} (h : Reaches g w ⟨0, input, [.bottom]⟩)
    (hw : w = read ++ input) : read = [] := by
  generalize hc : (⟨0, input, [.bottom]⟩ : Configuration) = c at h
  cases h with
  | @working read' input' form hw' hform =>
    rw [workingAt, Configuration.mk.injEq] at hc
    obtain ⟨_, rfl, hpile⟩ := hc
    obtain ⟨rfl, _⟩ := pile_eq_bottom_cons hpile.symm
    rw [Spells.nil_iff.mp (Productions.yields_iff_spells.mp hform)] at hw'
    exact List.append_left_eq_self.mp (hw.symm.trans hw')
  | finished => cases hc

/-! ### Runs that read a word -/

/-- A terminal is shifted. -/
theorem run_shift {c : Char} {before : Body} {input : List Char} (hc : c ∈ g.terminals)
    (hl : before.length + 2 ≤ height) :
    g.toBottomUp.Run height (workingAt (c :: input) before)
      (workingAt input (before ++ [.terminal c])) := by
  refine .step (mem_transitions_toBottomUp_iff.mpr (Or.inl ⟨c, hc, rfl⟩))
    (Transition.fire?_eq_some_iff.mpr ⟨input, pile before, rfl, ?_⟩) ?_ (.refl _)
  · rw [workingAt, pile_append]
    rfl
  · rw [workingAt, length_pile, List.length_append]
    exact hl

/-- A body is reduced to its head. -/
theorem run_reduce {head : String} {body before : Body} {input : List Char}
    (hb : body ∈ g.toProper.bodies head) (hne : body ≠ []) (hl : before.length + 2 ≤ height) :
    g.toBottomUp.Run height (workingAt input (before ++ body))
      (workingAt input (before ++ [.nonterminal head])) := by
  refine .step (mem_transitions_toBottomUp_iff.mpr (Or.inr (Or.inl ⟨head, body, hb, hne, rfl⟩)))
    (Transition.fire?_eq_some_iff.mpr ⟨input, pile before, ?_, ?_⟩) ?_ (.refl _)
  · rw [workingAt, pile_append]
    rfl
  · rw [workingAt, pile_append]
    rfl
  · rw [workingAt, length_pile, List.length_append]
    exact hl

/-- What a form of used tokens yields can be read with the form put on the pile. The pile never
gets higher than what has been read for the form, and what is below it. -/
theorem run_of_yields_toProper (hg : g.WellFormed) {form : Body} {v : List Char}
    (h : g.toProper.productions.Yields form v)
    (huses : ∀ t ∈ form, g.toProper.productions.Uses t) {before : Body} {input : List Char}
    (hl : before.length + v.length + 1 ≤ height) :
    g.toBottomUp.Run height (workingAt (v ++ input) before) (workingAt input (before ++ form)) := by
  have hsolid := (noncontracting_toProper hg).solid
  induction h generalizing before input with
  | nil =>
    rw [List.append_nil]
    exact .refl _
  | @terminal c form v _ ih =>
    obtain ⟨_, _, hterminals⟩ := wellFormed_iff.mp hg.toProper
    have hc : c ∈ g.terminals := mem_terminals_of_mem_terminals_toProper
      (hterminals c (huses _ List.mem_cons_self))
    rw [List.length_cons] at hl
    have hrest : (before ++ [Token.terminal c]).length + v.length + 1 ≤ height := by
      rw [List.length_append, List.length_singleton]
      omega
    have hrun : g.toBottomUp.Run height (workingAt (v ++ input) (before ++ [.terminal c]))
        (workingAt input (before ++ [.terminal c] ++ form)) :=
      ih (fun t ht ↦ huses t (List.mem_cons_of_mem _ ht)) hrest
    rw [List.append_assoc] at hrun
    exact (run_shift hc (by omega)).trans hrun
  | @nonterminal name body form u v hb hu _ ihu ihv =>
    have hbody := fun t ht ↦ Productions.Uses.of_mem hb (t := t) ht
    have hne : body ≠ [] := by
      rintro rfl
      exact hsolid name (huses _ List.mem_cons_self) hb
    have hpos := List.length_pos_iff.mpr hne
    have hleu := hsolid.length_le hu hbody
    rw [List.length_append] at hl
    have hrest : (before ++ [Token.nonterminal name]).length + v.length + 1 ≤ height := by
      rw [List.length_append, List.length_singleton]
      omega
    have hread : g.toBottomUp.Run height (workingAt (u ++ (v ++ input)) before)
        (workingAt (v ++ input) (before ++ body)) := ihu hbody (by omega)
    have hrun : g.toBottomUp.Run height (workingAt (v ++ input) (before ++ [.nonterminal name]))
        (workingAt input (before ++ [.nonterminal name] ++ form)) :=
      ihv (fun t ht ↦ huses t (List.mem_cons_of_mem _ ht)) hrest
    rw [List.append_assoc] at hrun ⊢
    exact hread.trans ((run_reduce hb hne (by omega)).trans hrun)

end Runs

/-! ### The words of the recognizer -/

/-- The recognizer accepts the words that the proper grammar generates. -/
theorem accepts_toBottomUp_iff {g : Grammar} (hg : g.WellFormed) {w : List Char} :
    g.toBottomUp.accepts w = true ↔ g.toProper.Generates w := by
  have haccepting (c : Configuration) :
      g.toBottomUp.isAccepting c = true ↔ c.input = [] ∧ c.state = 1 := by
    rw [Pushdown.isAccepting_iff_of_finalState rfl]
    exact and_congr_right' OrderedSet.mem_singleton
  rw [Pushdown.accepts, Pushdown.acceptsWithin_iff, generates_iff]
  constructor
  · rintro ⟨last, hrun, hlast⟩
    obtain ⟨hinput, hstate⟩ := (haccepting last).mp hlast
    obtain ⟨read, hw, hread⟩ :=
      exists_of_reaches_finished (Reaches.run hrun (reaches_start g w)) hstate
    rw [hw, hinput, List.append_nil]
    exact hread
  · rintro ⟨body, hb, h⟩
    refine ⟨finishedAt [], ?_, (haccepting _).mpr ⟨rfl, rfl⟩⟩
    by_cases hne : body = []
    · -- Only the empty word is spelled by the empty body, and the bottom alone accepts it.
      subst hne
      obtain rfl : w = [] := Spells.nil_iff.mp (Productions.yields_iff_spells.mp h)
      exact .step (mem_transitions_toBottomUp_iff.mpr (Or.inr (Or.inr (Or.inr ⟨hb, rfl⟩))))
        (Transition.fire?_eq_some_iff.mpr ⟨[], [], rfl, rfl⟩) (Nat.zero_le _) (.refl _)
    · have huses := fun t ht ↦ Productions.Uses.of_mem hb (t := t) ht
      have hread : g.toBottomUp.Run (w.length + 2) (workingAt (w ++ []) [])
          (workingAt [] ([] ++ body)) :=
        run_of_yields_toProper hg h huses (by simp)
      rw [List.append_nil] at hread
      have hreduce : g.toBottomUp.Run (w.length + 2) (workingAt [] ([] ++ body))
          (workingAt [] ([] ++ [.nonterminal g.toProper.start])) :=
        run_reduce hb hne (by simp)
      have hfinish : g.toBottomUp.Run (w.length + 2)
          (workingAt [] [.nonterminal g.toProper.start]) (finishedAt []) :=
        .step (mem_transitions_toBottomUp_iff.mpr (Or.inr (Or.inr (Or.inl rfl))))
          (Transition.fire?_eq_some_iff.mpr ⟨[], [], rfl, rfl⟩) (Nat.zero_le _) (.refl _)
      exact hread.trans (hreduce.trans hfinish)

/-- The bottom-up recognizer accepts exactly the words that the grammar accepts, and these are the
words that the grammar generates. The bottom marker alone, on which the empty word is accepted, is
left by no other word. -/
theorem accepts_toBottomUp {g : Grammar} (hg : g.WellFormed) (w : List Char) :
    g.toBottomUp.accepts w = g.accepts w ∧ (g.toBottomUp.accepts w = true ↔ g.Generates w) ∧
      ∀ height, g.toBottomUp.Run height (g.toBottomUp.start w) ⟨0, [], [.bottom]⟩ → w = [] := by
  have hgenerates : g.toBottomUp.accepts w = true ↔ g.Generates w := by
    rw [accepts_toBottomUp_iff hg, generates_toProper_iff hg]
  refine ⟨?_, hgenerates, fun height hrun ↦ ?_⟩
  · rw [Bool.eq_iff_iff, hgenerates, accepts_iff_language hg, generates_iff]
  · exact eq_nil_of_reaches_bottom (Reaches.run hrun (reaches_start g w)) (List.append_nil w).symm

/-- The recognizer of a grammar with hidden left recursion agrees with the grammar. -/
theorem accepts_toBottomUp_hiddenRecursion :
    hiddenRecursion.WellFormed ∧
      hiddenRecursion.toBottomUp.accepts ['a', 'b', 'b'] = hiddenRecursion.accepts ['a', 'b', 'b'] ∧
        (hiddenRecursion.toBottomUp.accepts ['a', 'b', 'b'] = true ↔
          hiddenRecursion.Generates ['a', 'b', 'b']) ∧
        ∀ height, hiddenRecursion.toBottomUp.Run height
          (hiddenRecursion.toBottomUp.start ['a', 'b', 'b']) ⟨0, [], [.bottom]⟩ →
            ['a', 'b', 'b'] = [] :=
  ⟨by decide, accepts_toBottomUp (by decide) ['a', 'b', 'b']⟩

end LanguageTheory.Grammar
