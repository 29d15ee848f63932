import LanguageTheory.Proofs.AutomatonDraft
import LanguageTheory.Proofs.Grammar.RegularStates
import LanguageTheory.Proofs.Nfa.Deterministic
import LanguageTheory.Proofs.Regex.Graph

/-!
# Where automata come from

Nondeterministic automata are made of drafts, expressions, graphs, deterministic automata and
regular grammars, or of one another by removing transitions on the empty word. Whatever they are
made of, their transitions read declared characters.
-/

namespace LanguageTheory.Nfa

variable {n : Nfa}

/-- The automata that the library makes. -/
inductive Constructible : Nfa → Prop where
  | draft {d : AutomatonDraft} {n : Nfa} : d.toNfa = .ok n → Constructible n
  | regex (r : Regex) : Constructible r.toNfa
  | graph {g : RegexGraph} {n : Nfa} : g.toNfa = .ok n → Constructible n
  | dfa (d : Dfa) : Constructible d.toNfa
  | grammar {g : RegularGrammar} : g.WellFormed → Constructible g.toNfa
  | removeEpsilon {n : Nfa} : Constructible n → Constructible n.removeEpsilon

/-- The transitions of an automaton read declared characters, however it was made. -/
theorem Constructible.readsDeclared (h : n.Constructible) : n.ReadsDeclared := by
  cases h with
  | draft h => exact AutomatonDraft.readsDeclared_of_check (AutomatonDraft.toNfa_eq_ok_iff.mp h).1
  | regex r => exact r.readsDeclared_toNfa
  | @graph g _ h => exact RegexGraph.readsDeclared_of_toNfa h
  | dfa d => exact fun _ _ _ h ↦ Dfa.mem_alphabet_of_mem_transitions_toNfa h
  | grammar hg => exact hg.readsDeclared_toNfa
  | @removeEpsilon m _ => exact readsDeclared_removeEpsilon m

end LanguageTheory.Nfa
