import LanguageTheory.Regex.Basic

/-!
# Expressions as sequences of tokens

Listing the nodes of an expression after their operands determines the expression: reading the
list back with a stack of operands is inverse to writing it.

Spec guidance: `SPEC_FULL.md` §4.3.
-/

namespace LanguageTheory.Regex

/-- A node of an expression, without its operands. -/
inductive Node where
  | epsilon
  | literal (c : Char)
  | alternation
  | concatenation
  | star
  deriving DecidableEq, Repr

/-- Text of a node. -/
def Node.toChar : Node → Char
  | epsilon => epsilonChar
  | literal c => c
  | alternation => '+'
  | concatenation => '.'
  | star => '*'

/-- The nodes of an expression, each after its operands. -/
def postorder : Regex → List Node
  | epsilon => [.epsilon]
  | literal c => [.literal c]
  | alternation r s => r.postorder ++ s.postorder ++ [.alternation]
  | concatenation r s => r.postorder ++ s.postorder ++ [.concatenation]
  | star r => r.postorder ++ [.star]

/-- Puts a node on top of its operands, which are taken from a stack. -/
def reduce? : Node → List Regex → Option (List Regex)
  | .epsilon, stack => some (epsilon :: stack)
  | .literal c, stack => some (literal c :: stack)
  | .alternation, s :: r :: stack => some (alternation r s :: stack)
  | .concatenation, s :: r :: stack => some (concatenation r s :: stack)
  | .star, r :: stack => some (star r :: stack)
  | _, _ => none

/-- Reads nodes from a given position on, with a stack of the operands read so far. -/
def readNodes (stack : List Regex) (position : Nat) : List Node → Except Error Regex
  | [] =>
    match stack with
    | [r] => .ok r
    | _ => .error (.unexpectedToken position "end of input")
  | node :: nodes =>
    match reduce? node stack with
    | some stack => readNodes stack (position + 1) nodes
    | none => .error (.unexpectedToken position node.toChar.toString)

/-- The expression with the given nodes, each after its operands (§4.3). -/
def ofPostorder (nodes : List Node) : Except Error Regex := readNodes [] 0 nodes

/-- Reading the nodes of an expression puts the expression on the stack. -/
theorem readNodes_postorder_append (r : Regex) (stack : List Regex) (position : Nat)
    (nodes : List Node) :
    readNodes stack position (r.postorder ++ nodes) =
      readNodes (r :: stack) (position + r.postorder.length) nodes := by
  induction r generalizing stack position nodes with
  | epsilon => rfl
  | literal c => rfl
  | alternation r s ihr ihs =>
    rw [postorder, List.length_append, List.length_append, List.append_assoc, List.append_assoc,
      ihr, ihs, ← Nat.add_assoc, ← Nat.add_assoc]
    rfl
  | concatenation r s ihr ihs =>
    rw [postorder, List.length_append, List.length_append, List.append_assoc, List.append_assoc,
      ihr, ihs, ← Nat.add_assoc, ← Nat.add_assoc]
    rfl
  | star r ih =>
    rw [postorder, List.length_append, List.append_assoc, ih, ← Nat.add_assoc]
    rfl

/-- Writing the nodes of an expression and reading them back gives the expression. -/
theorem ofPostorder_postorder (r : Regex) : ofPostorder r.postorder = .ok r := by
  have h := readNodes_postorder_append r [] 0 []
  rw [List.append_nil] at h
  rw [ofPostorder, h]
  rfl

end LanguageTheory.Regex
