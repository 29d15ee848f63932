import LanguageTheory.AutomatonDraft
import LanguageTheory.Numbered.Operations
import LanguageTheory.Numbered.Subsets
import LanguageTheory.Regex.Thompson

/-!
# Making numbered automata

Numbered automata are made of drafts and of expressions. A draft is written into a table of empty
rows, entry by entry; an expression goes through the sets of states of its automaton. A lookup that
finds no entry gives `none`, whatever else is wrong with the draft.

Spec guidance: `SPEC_FULL.md` §§4.3, 11.1, 11.3.
-/

namespace LanguageTheory

/-! ### Drafts -/

namespace AutomatonDraft

open NumberedDfa

/-- Writes one entry of a transition table into the rows of the states; it must be
deterministic (§7). -/
def enter? (n : Nfa) (rows : List State) (entry : (Nat × Symbol) × OrderedSet Nat) :
    ExceptT Error Option (List State) :=
  match entry with
  | ((_, .epsilon), _) => throw (.unknownSymbol epsilonChar)
  | ((i, .char c), targets) => do
    if 1 < targets.size then
      let label ← ExceptT.lift (n.labels.get? i)
      throw (.nondeterministicTransition label c)
    let k := (n.alphabet.idxOf? c).getD 0
    let row ← ExceptT.lift rows[i]?
    let _ ← ExceptT.lift row.next[k]?
    return rows.set i { row with next := row.next.set k targets.first? }

/-- The rows of the states before any transition is entered. -/
def emptyRows (n : Nfa) : List State :=
  n.labels.toList.mapIdx fun i label ↦
    ⟨i, label, n.isAccepting i, List.replicate n.alphabet.size none⟩

/-- The numbered automaton that a draft describes. -/
def toNumbered? (d : AutomatonDraft) : ExceptT Error Option NumberedDfa := do
  let n ← ExceptT.mk (some d.check)
  let initial ← ExceptT.mk (some (uniqueInitial n.initial))
  let rows ← n.delta.entries.foldlM (enter? n) (emptyRows n)
  ExceptT.lift (assemble? n.alphabet rows initial)

end AutomatonDraft

/-! ### Expressions -/

/-- The numbered minimal automaton of an expression. -/
def Regex.toNumbered? (r : Regex) : Option NumberedDfa := do
  let t ← r.toNfa.toNumbered?
  t.minimize?

end LanguageTheory
