import LanguageTheory.Regex.Postorder

/-!
# The lists of nodes that are read

A list of nodes is read as an expression exactly when it lists the nodes of this expression, each
after its operands. The stack holds the expressions whose nodes have been read and are nobody's
operands yet: their nodes, from the bottom of the stack to its top, are all that was read.
-/

namespace LanguageTheory.Regex

variable {node : Node} {nodes : List Node} {stack next : List Regex} {position : Nat} {r : Regex}

/-- The nodes of the expressions on a stack, from its bottom to its top. -/
def stackNodes (stack : List Regex) : List Node := stack.reverse.flatMap postorder

/-- The nodes of the expression on top come last. -/
theorem stackNodes_cons (r : Regex) (stack : List Regex) :
    stackNodes (r :: stack) = stackNodes stack ++ r.postorder := by
  simp [stackNodes]

/-- A node that is put on top of its operands follows their nodes. -/
theorem stackNodes_of_reduce? (h : reduce? node stack = some next) :
    stackNodes next = stackNodes stack ++ [node] := by
  cases node with
  | epsilon =>
    cases h
    exact stackNodes_cons epsilon stack
  | literal c =>
    cases h
    exact stackNodes_cons (literal c) stack
  | star =>
    obtain _ | ⟨r, stack⟩ := stack
    · cases h
    · cases h
      simp only [stackNodes_cons, postorder, List.append_assoc]
  | alternation =>
    obtain _ | ⟨s, _ | ⟨r, stack⟩⟩ := stack
    · cases h
    · cases h
    · cases h
      simp only [stackNodes_cons, postorder, List.append_assoc]
  | concatenation =>
    obtain _ | ⟨s, _ | ⟨r, stack⟩⟩ := stack
    · cases h
    · cases h
    · cases h
      simp only [stackNodes_cons, postorder, List.append_assoc]

/-- The nodes that were read before and those that are read now are the nodes of the result. -/
theorem stackNodes_append_of_readNodes (h : readNodes stack position nodes = .ok r) :
    stackNodes stack ++ nodes = r.postorder := by
  induction nodes generalizing stack position with
  | nil =>
    unfold readNodes at h
    split at h
    · cases h
      simp [stackNodes]
    · cases h
  | cons node nodes ih =>
    unfold readNodes at h
    split at h
    · next next hnext =>
      have hread : stackNodes next ++ nodes = r.postorder := ih h
      rwa [stackNodes_of_reduce? hnext, List.append_assoc] at hread
    · cases h

/-- A list of nodes is read as an expression exactly when it lists the nodes of this expression, and
reading fails exactly when it lists the nodes of none. -/
theorem ofPostorder_eq_ok_iff_eq_postorder (nodes : List Node) :
    (∀ r : Regex, ofPostorder nodes = .ok r ↔ nodes = r.postorder) ∧
      ((∃ e, ofPostorder nodes = .error e) ↔ ∀ r : Regex, nodes ≠ r.postorder) := by
  have hread : ∀ r : Regex, ofPostorder nodes = .ok r ↔ nodes = r.postorder := by
    intro r
    constructor
    · exact fun h ↦ stackNodes_append_of_readNodes h
    · rintro rfl
      exact ofPostorder_postorder r
  refine ⟨hread, ?_⟩
  cases hnodes : ofPostorder nodes with
  | error e =>
    have hnone : ∀ r : Regex, nodes ≠ r.postorder := by
      intro r hr
      cases hnodes.symm.trans ((hread r).mpr hr)
    exact iff_of_true ⟨e, rfl⟩ hnone
  | ok r =>
    refine iff_of_false ?_ fun hnone ↦ hnone r ((hread r).mp hnodes)
    rintro ⟨e, he⟩
    cases he

/-- The operand of a concatenation is on the left of the one that was read later. -/
example : ofPostorder [.literal 'a', .literal 'b', .concatenation] =
    .ok (concatenation (literal 'a') (literal 'b')) := rfl

end LanguageTheory.Regex
