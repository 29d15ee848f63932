import LanguageTheory.Pushdown.Recognizers
import LanguageTheory.Proofs.Grammar.LeftRecursion
import LanguageTheory.Proofs.Grammar.Membership
import LanguageTheory.Proofs.Pushdown.Runs

/-!
# The top-down recognizer

The stack of the top-down recognizer is a form, and the recognizer can empty it exactly on the words
that the form yields. As only an unused start symbol derives the empty word, the form on the stack
is never longer than the input that is left to it, so that no accepting run needs a higher stack
than the search allows.
-/

namespace LanguageTheory.Grammar

open Pushdown (StackSymbol Transition Configuration)

/-! ### Transitions -/

/-- A configuration whose stack is a form. -/
def formAt (input : List Char) (form : Body) : Configuration :=
  ⟨0, input, form.map Token.toStackSymbol⟩

/-- The transitions expand a nonterminal by a body or read a terminal. -/
theorem mem_transitions_toTopDown_iff {g : Grammar} {t : Transition} :
    t ∈ g.toTopDown.transitions ↔
      (∃ head, ∃ body ∈ g.removeLeftRecursion.bodies head,
        t = ⟨0, none, [.nonterminal head], 0, body.map Token.toStackSymbol⟩) ∨
        ∃ c ∈ g.terminals, t = ⟨0, some c, [.terminal c], 0, []⟩ := by
  unfold toTopDown
  rw [List.mem_append, List.mem_map, List.mem_map]
  apply or_congr
  · constructor
    · rintro ⟨⟨head, body⟩, hr, rfl⟩
      exact ⟨head, body, mem_rules_iff.mp hr, rfl⟩
    · rintro ⟨head, body, hb, rfl⟩
      exact ⟨(head, body), mem_rules_iff.mpr hb, rfl⟩
  · constructor
    · rintro ⟨c, hc, rfl⟩
      exact ⟨c, hc, rfl⟩
    · rintro ⟨c, hc, rfl⟩
      exact ⟨c, hc, rfl⟩

/-- A form begins with a token when its stack begins with the symbol of the token. -/
theorem exists_of_map_eq_cons {form : Body} {t : Token} {stack : List StackSymbol}
    (h : form.map Token.toStackSymbol = t.toStackSymbol :: stack) :
    ∃ rest, form = t :: rest ∧ rest.map Token.toStackSymbol = stack := by
  obtain ⟨s, rest, rfl, hs, hrest⟩ := List.map_eq_cons_iff.mp h
  rw [Token.toStackSymbol_injective hs]
  exact ⟨rest, rfl, hrest⟩

/-- What a transition does to a form: it expands the leading nonterminal, or reads the leading
terminal. -/
theorem fire?_formAt_cases {g : Grammar} {t : Transition} {input : List Char} {form : Body}
    {next : Configuration} (ht : t ∈ g.toTopDown.transitions)
    (h : t.fire? (formAt input form) = some next) :
    (∃ head rest, form = .nonterminal head :: rest ∧
      ∃ body ∈ g.removeLeftRecursion.bodies head, next = formAt input (body ++ rest)) ∨
      ∃ c rest more, form = .terminal c :: rest ∧ input = c :: more ∧ next = formAt more rest := by
  obtain ⟨more, stack, hc, rfl⟩ := Transition.fire?_eq_some_iff.mp h
  rw [formAt, Configuration.mk.injEq] at hc
  obtain ⟨_, hinput, hstack⟩ := hc
  rcases mem_transitions_toTopDown_iff.mp ht with ⟨head, body, hb, rfl⟩ | ⟨c, _, rfl⟩
  · obtain ⟨rest, rfl, rfl⟩ := exists_of_map_eq_cons (t := .nonterminal head) hstack
    refine Or.inl ⟨head, rest, rfl, body, hb, ?_⟩
    rw [formAt, List.map_append, hinput]
    rfl
  · obtain ⟨rest, rfl, rfl⟩ := exists_of_map_eq_cons (t := .terminal c) hstack
    exact Or.inr ⟨c, rest, more, rfl, hinput, rfl⟩

section Runs

variable {g : Grammar} {height : Nat}

/-! ### Runs that empty the stack -/

/-- Whatever empties the stack and reads the input derives the input from the form on the stack. -/
theorem yields_of_run {input : List Char} {form : Body} {last : Configuration}
    (h : g.toTopDown.Run height (formAt input form) last) (hinput : last.input = [])
    (hstack : last.stack = []) : g.removeLeftRecursion.productions.Yields form input := by
  generalize hfirst : formAt input form = first at h
  induction h generalizing input form with
  | refl =>
    subst hfirst
    obtain rfl : form = [] := List.map_eq_nil_iff.mp hstack
    obtain rfl : input = [] := hinput
    exact .nil
  | step ht hd _ _ ih =>
    subst hfirst
    rcases fire?_formAt_cases ht hd with
      ⟨head, rest, rfl, body, hb, rfl⟩ | ⟨c, rest, more, rfl, rfl, rfl⟩
    · have hnext := Productions.yields_iff_spells.mp (ih hinput hstack rfl)
      obtain ⟨u, v, rfl, hu, hv⟩ := Spells.append_iff.mp hnext
      exact .nonterminal hb (Productions.yields_iff_spells.mpr hu)
        (Productions.yields_iff_spells.mpr hv)
    · exact .terminal c (ih hinput hstack rfl)

/-- A nonterminal on top of the stack is expanded. -/
theorem run_expand {head : String} {body form : Body} {input : List Char} {last : Configuration}
    (hb : body ∈ g.removeLeftRecursion.bodies head) (hl : (body ++ form).length ≤ height)
    (h : g.toTopDown.Run height (formAt input (body ++ form)) last) :
    g.toTopDown.Run height (formAt input (.nonterminal head :: form)) last := by
  refine .step (mem_transitions_toTopDown_iff.mpr (Or.inl ⟨head, body, hb, rfl⟩))
    (Transition.fire?_eq_some_iff.mpr ⟨input, form.map Token.toStackSymbol, rfl, rfl⟩) ?_ ?_
  · rw [List.length_append] at hl
    simpa using hl
  · rwa [formAt, List.map_append] at h

/-- A terminal on top of the stack is read. -/
theorem run_read {c : Char} {form : Body} {input : List Char} {last : Configuration}
    (hc : c ∈ g.terminals) (hl : form.length ≤ height)
    (h : g.toTopDown.Run height (formAt input form) last) :
    g.toTopDown.Run height (formAt (c :: input) (.terminal c :: form)) last := by
  refine .step (mem_transitions_toTopDown_iff.mpr (Or.inr ⟨c, hc, rfl⟩))
    (Transition.fire?_eq_some_iff.mpr ⟨input, form.map Token.toStackSymbol, rfl, rfl⟩) ?_ h
  simpa using hl

/-- What a form of used tokens yields can be read off the input with the form on top of the stack.
The stack never gets higher than what is still to be read of the form, and what is below it. -/
theorem run_of_yields (hg : g.WellFormed) {form : Body} {v : List Char}
    (h : g.removeLeftRecursion.productions.Yields form v)
    (huses : ∀ t ∈ form, g.removeLeftRecursion.productions.Uses t) {below : Body}
    {input : List Char} (hl : v.length + below.length ≤ height) :
    g.toTopDown.Run height (formAt (v ++ input) (form ++ below)) (formAt input below) := by
  have hsolid := (noncontracting_removeLeftRecursion hg).solid
  induction h generalizing below input with
  | nil => exact .refl _
  | @terminal c form v hv ih =>
    obtain ⟨_, _, hterminals⟩ := wellFormed_iff.mp hg.removeLeftRecursion
    have hrest := fun t ht ↦ huses t (List.mem_cons_of_mem _ ht)
    have hc : c ∈ g.terminals := mem_terminals_of_mem_terminals_removeLeftRecursion
      (hterminals c (huses _ List.mem_cons_self))
    have hle := hsolid.length_le hv hrest
    rw [List.length_cons] at hl
    have hheight : (form ++ below).length ≤ height := by
      rw [List.length_append]
      omega
    exact run_read hc hheight (ih hrest (by omega))
  | @nonterminal name body form u v hb hu hv ihu ihv =>
    have hbody := fun t ht ↦ Productions.Uses.of_mem hb (t := t) ht
    have hrest := fun t ht ↦ huses t (List.mem_cons_of_mem _ ht)
    have hleu := hsolid.length_le hu hbody
    have hlev := hsolid.length_le hv hrest
    rw [List.length_append] at hl
    have hheight : (body ++ (form ++ below)).length ≤ height := by
      rw [List.length_append, List.length_append]
      omega
    have hbelow : u.length + (form ++ below).length ≤ height := by
      rw [List.length_append]
      omega
    rw [List.append_assoc]
    exact run_expand hb hheight ((ihu hbody hbelow).trans (ihv hrest (by omega)))

end Runs

/-! ### The words of the recognizer -/

/-- The recognizer accepts the words that the grammar without left recursion generates. -/
theorem accepts_toTopDown_iff {g : Grammar} (hg : g.WellFormed) {w : List Char} :
    g.toTopDown.accepts w = true ↔ g.removeLeftRecursion.Generates w := by
  have hstart : g.toTopDown.start w =
      formAt w [.nonterminal g.removeLeftRecursion.start] := rfl
  rw [Pushdown.accepts, Pushdown.acceptsWithin_iff, hstart, generates_iff]
  constructor
  · rintro ⟨last, hrun, haccepting⟩
    obtain ⟨hinput, hstack⟩ := (Pushdown.isAccepting_iff_of_emptyStack rfl).mp haccepting
    have h := Productions.yields_iff_spells.mp (yields_of_run hrun hinput hstack)
    exact Spells.single_iff.mp h
  · rintro ⟨body, hb, h⟩
    have huses := fun t ht ↦ Productions.Uses.of_mem hb (t := t) ht
    have hle := (noncontracting_removeLeftRecursion hg).solid.length_le h huses
    have hrun : g.toTopDown.Run (w.length + 2) (formAt (w ++ []) (body ++ [])) (formAt [] []) :=
      run_of_yields hg h huses (by simp)
    rw [List.append_nil] at hrun
    have hheight : (body ++ []).length ≤ w.length + 2 := by
      rw [List.append_nil]
      omega
    refine ⟨formAt [] [], run_expand hb hheight hrun, ?_⟩
    exact (Pushdown.isAccepting_iff_of_emptyStack rfl).mpr ⟨rfl, rfl⟩

/-- The top-down recognizer accepts exactly the words that the grammar accepts, and these are the
words that the grammar generates. -/
theorem accepts_toTopDown {g : Grammar} (hg : g.WellFormed) (w : List Char) :
    g.toTopDown.accepts w = g.accepts w ∧ (g.toTopDown.accepts w = true ↔ g.Generates w) := by
  have hgenerates : g.toTopDown.accepts w = true ↔ g.Generates w := by
    rw [accepts_toTopDown_iff hg, generates_removeLeftRecursion_iff hg]
  refine ⟨?_, hgenerates⟩
  rw [Bool.eq_iff_iff, hgenerates, accepts_iff_language hg, generates_iff]

/-- The recognizer of a grammar with hidden left recursion agrees with the grammar. -/
theorem accepts_toTopDown_hiddenRecursion :
    hiddenRecursion.WellFormed ∧
      hiddenRecursion.toTopDown.accepts ['a', 'b', 'b'] = hiddenRecursion.accepts ['a', 'b', 'b'] ∧
        (hiddenRecursion.toTopDown.accepts ['a', 'b', 'b'] = true ↔
          hiddenRecursion.Generates ['a', 'b', 'b']) :=
  ⟨by decide, accepts_toTopDown (by decide) ['a', 'b', 'b']⟩

end LanguageTheory.Grammar
