import LanguageTheory.Regex.Postorder
import LanguageTheory.Regex.Reading

/-!
# Transcribing expressions

A text can be transcribed into the nodes of its expression, each after its operands, without making
the tree: the reader takes the same way through the grammar and writes every node as soon as it has
read the operands of the node. Where it fails, it fails as the reader that makes the tree.

Spec guidance: `SPEC_FULL.md` §§4.3, 7.
-/

namespace LanguageTheory.Regex

/-- The nodes that have been written when some tokens are taken from the front, and the tokens after
them. -/
structure Transcript (input : List Lexeme) where
  /-- Nodes, the latest one first. -/
  written : List Node
  rest : List Lexeme
  rest_lt : rest.length < input.length

/-- Writes a repetition for every `*` that follows. -/
def writeStars {input : List Lexeme} (written : List Node) :
    (ls : List Lexeme) → ls.length < input.length → Transcript input
  | ⟨_, .star⟩ :: ls, h => writeStars (.star :: written) ls (Nat.lt_of_succ_lt h)
  | ls, h => ⟨written, ls, h⟩

mutual

/-- Writes the nodes of an expression. -/
def writeExpression (stop : Nat) (written : List Node) (ls : List Lexeme) :
    Except Error (Transcript ls) :=
  match writeTerm stop written ls with
  | .error e => .error e
  | .ok left =>
    match skip? .plus left.rest with
    | none => .ok left
    | some ⟨rest, h⟩ =>
      match writeExpression stop left.written rest with
      | .error e => .error e
      | .ok right =>
        .ok ⟨.alternation :: right.written, right.rest,
          Nat.lt_trans right.rest_lt (Nat.lt_trans h left.rest_lt)⟩
termination_by (ls.length, 3)
decreasing_by
  · exact Prod.Lex.right _ (by omega)
  · exact Prod.Lex.left _ _ (Nat.lt_trans h left.rest_lt)

/-- Writes the nodes of a term. -/
def writeTerm (stop : Nat) (written : List Node) (ls : List Lexeme) :
    Except Error (Transcript ls) :=
  match writeFactor stop written ls with
  | .error e => .error e
  | .ok left =>
    match skip? .dot left.rest with
    | none => .ok left
    | some ⟨rest, h⟩ =>
      match writeTerm stop left.written rest with
      | .error e => .error e
      | .ok right =>
        .ok ⟨.concatenation :: right.written, right.rest,
          Nat.lt_trans right.rest_lt (Nat.lt_trans h left.rest_lt)⟩
termination_by (ls.length, 2)
decreasing_by
  · exact Prod.Lex.right _ (by omega)
  · exact Prod.Lex.left _ _ (Nat.lt_trans h left.rest_lt)

/-- Writes the nodes of a factor. -/
def writeFactor (stop : Nat) (written : List Node) (ls : List Lexeme) :
    Except Error (Transcript ls) :=
  match writePrimary stop written ls with
  | .error e => .error e
  | .ok first => .ok (writeStars first.written first.rest first.rest_lt)
termination_by (ls.length, 1)
decreasing_by exact Prod.Lex.right _ (by omega)

/-- Writes the nodes of a primary. -/
def writePrimary (stop : Nat) (written : List Node) : (ls : List Lexeme) →
    Except Error (Transcript ls)
  | [] => .error (missingOperand stop [])
  | l :: ls =>
    match l.token with
    | .leftParen =>
      match writeExpression stop written ls with
      | .error e => .error e
      | .ok inner =>
        match skip? .rightParen inner.rest with
        | some ⟨rest, h⟩ =>
          .ok ⟨inner.written, rest, Nat.lt_succ_of_lt (Nat.lt_trans h inner.rest_lt)⟩
        | none =>
          if inner.rest.isEmpty then .error (.unbalancedParentheses l.position)
          else .error (leftover stop inner.rest)
    | .epsilon => .ok ⟨.epsilon :: written, ls, Nat.lt_succ_self _⟩
    | .literal c => .ok ⟨.literal c :: written, ls, Nat.lt_succ_self _⟩
    | _ => .error (missingOperand stop (l :: ls))
termination_by ls => (ls.length, 0)
decreasing_by exact Prod.Lex.left _ _ (Nat.lt_succ_self _)

end

/-- The nodes of the expression that spans a whole text, each after its operands (§4.3). -/
def transcribe (cs : List Char) : Except Error (List Node) :=
  match writeExpression cs.length [] (lexemes 0 cs) with
  | .error e => .error e
  | .ok last =>
    if last.rest.isEmpty then .ok last.written.reverse
    else .error (leftover cs.length last.rest)

end LanguageTheory.Regex
