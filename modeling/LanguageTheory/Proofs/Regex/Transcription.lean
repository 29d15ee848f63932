import LanguageTheory.Proofs.Regex.Reading
import LanguageTheory.Regex.Transcription
import Mathlib.Data.List.Defs

/-!
# Transcribed expressions

Transcribing a text writes the nodes of the expression that is read from it, after those that were
written before, and fails as reading fails. The stack that reads the nodes back therefore never
lacks an operand and ends with the expression alone.
-/

namespace LanguageTheory.Regex

variable {stop : Nat} {ls : List Lexeme} {r : Regex} {cs : List Char} {written : List Node}

/-- What is written when an expression is read from the front. -/
def Front.transcript (written : List Node) (front : Front ls) : Transcript ls :=
  ⟨front.regex.postorder.reverse ++ written, front.rest, front.rest_lt⟩

/-- The repetitions are written after their operand. -/
theorem writeStars_eq {input : List Lexeme} (r : Regex) (written : List Node) (ls : List Lexeme)
    (h : ls.length < input.length) :
    writeStars (r.postorder.reverse ++ written) ls h =
      Front.transcript written
        ⟨(stars r ls).1, (stars r ls).2, Nat.lt_of_le_of_lt (stars r ls).2.2 h⟩ := by
  fun_induction stars r ls with
  | case1 r position ls r' rest hstars ih =>
    have hnext : Node.star :: (r.postorder.reverse ++ written) =
        r.star.postorder.reverse ++ written := by
      simp [postorder]
    have hrest := ih (Nat.lt_of_succ_lt h)
    rw [writeStars, hnext, hrest]
    simp only [hstars]
  | case2 r ls hstar =>
    rw [writeStars]
    · rfl
    · exact fun position ls _ heq _ ↦ hstar position ls heq

mutual

/-- An expression is transcribed when it is read. -/
theorem writeExpression_eq (stop : Nat) (written : List Node) (ls : List Lexeme) :
    writeExpression stop written ls = (expression stop ls).map (Front.transcript written) := by
  rw [writeExpression, expression, writeTerm_eq]
  cases term stop ls with
  | error e => rfl
  | ok left =>
    dsimp only [Except.map, Front.transcript]
    cases skip? .plus left.rest with
    | none => rfl
    | some after =>
      obtain ⟨rest, h⟩ := after
      have hlt := Nat.lt_trans h left.rest_lt
      dsimp only
      rw [writeExpression_eq stop _ rest]
      cases expression stop rest with
      | error e => rfl
      | ok right => simp [Except.map, Front.transcript, postorder]
termination_by (ls.length, 3)

/-- A term is transcribed when it is read. -/
theorem writeTerm_eq (stop : Nat) (written : List Node) (ls : List Lexeme) :
    writeTerm stop written ls = (term stop ls).map (Front.transcript written) := by
  rw [writeTerm, term, writeFactor_eq]
  cases factor stop ls with
  | error e => rfl
  | ok left =>
    dsimp only [Except.map, Front.transcript]
    cases skip? .dot left.rest with
    | none => rfl
    | some after =>
      obtain ⟨rest, h⟩ := after
      have hlt := Nat.lt_trans h left.rest_lt
      dsimp only
      rw [writeTerm_eq stop _ rest]
      cases term stop rest with
      | error e => rfl
      | ok right => simp [Except.map, Front.transcript, postorder]
termination_by (ls.length, 2)

/-- A factor is transcribed when it is read. -/
theorem writeFactor_eq (stop : Nat) (written : List Node) (ls : List Lexeme) :
    writeFactor stop written ls = (factor stop ls).map (Front.transcript written) := by
  rw [writeFactor, factor, writePrimary_eq]
  cases primary stop ls with
  | error e => rfl
  | ok first =>
    dsimp only [Except.map]
    exact congrArg Except.ok (writeStars_eq first.regex written first.rest first.rest_lt)
termination_by (ls.length, 1)

/-- A primary is transcribed when it is read. -/
theorem writePrimary_eq (stop : Nat) (written : List Node) (ls : List Lexeme) :
    writePrimary stop written ls = (primary stop ls).map (Front.transcript written) := by
  match ls with
  | [] => rw [writePrimary, primary]; rfl
  | l :: ls =>
    rw [writePrimary, primary]
    cases l.token with
    | leftParen =>
      dsimp only
      rw [writeExpression_eq stop written ls]
      cases expression stop ls with
      | error e => rfl
      | ok inner =>
        dsimp only [Except.map, Front.transcript]
        cases skip? .rightParen inner.rest with
        | some after => rfl
        | none =>
          dsimp only
          split <;> rfl
    | epsilon => rfl
    | literal c => rfl
    | _ => rfl
termination_by (ls.length, 0)

end

/-- The nodes that are transcribed are those of the expression that is read. -/
theorem transcribe_eq (cs : List Char) : transcribe cs = (parse cs).map postorder := by
  rw [transcribe, parse, writeExpression_eq]
  cases expression cs.length (lexemes 0 cs) with
  | error e => rfl
  | ok last =>
    dsimp only [Except.map, Front.transcript]
    split
    · simp
    · rfl

/-- The text that expressions are written in is read in two passes: its nodes are transcribed, and
the stack gives their tree. -/
theorem parse_eq_bind (cs : List Char) : parse cs = transcribe cs >>= ofPostorder := by
  rw [transcribe_eq]
  cases parse cs with
  | error e => rfl
  | ok r => exact (ofPostorder_postorder r).symm

/-- Nodes that are transcribed from a text fold to the tree of the text. -/
theorem ofPostorder_of_transcribe {nodes : List Node} (h : transcribe cs = .ok nodes) :
    ∃ r, ofPostorder nodes = .ok r ∧ parse cs = .ok r ∧ r.postorder = nodes := by
  rw [transcribe_eq] at h
  cases hparse : parse cs with
  | error e =>
    rw [hparse] at h
    cases h
  | ok r =>
    rw [hparse] at h
    cases h
    exact ⟨r, ofPostorder_postorder r, rfl, rfl⟩

/-- A text is read, by transcribing it and folding what is transcribed, exactly when its tokens are
an expression; then the tree of these tokens is read, and there is no other. Nodes that are
transcribed from a text always fold, to the tree of the text. -/
theorem parse_reads_grammar (cs : List Char) :
    parse cs = transcribe cs >>= ofPostorder ∧
      (∀ r, parse cs = .ok r ↔ IsExpression (tokens cs) r) ∧
      (∀ r s, IsExpression (tokens cs) r → IsExpression (tokens cs) s → r = s) ∧
      ∀ nodes, transcribe cs = .ok nodes →
        ∃ r, ofPostorder nodes = .ok r ∧ IsExpression (tokens cs) r ∧ r.postorder = nodes := by
  refine ⟨parse_eq_bind cs, fun r ↦ parse_eq_ok_iff, fun r s hr hs ↦ ?_, fun nodes hnodes ↦ ?_⟩
  · -- Both trees are what the text is read as.
    have hsame : Except.ok r = Except.ok s :=
      (parse_eq_ok_iff.mpr hr).symm.trans (parse_eq_ok_iff.mpr hs)
    exact Except.ok.inj hsame
  · obtain ⟨r, hfold, hparse, hpost⟩ := ofPostorder_of_transcribe hnodes
    exact ⟨r, hfold, parse_eq_ok_iff.mp hparse, hpost⟩

/-- The star of an alternation is an operand of the concatenation. -/
theorem parse_reads_grammar_starOfAlternation :
    ofPostorder [.literal 'a', .literal 'b', .literal 'c', .alternation, .star, .concatenation] =
        .ok (.concatenation (.literal 'a') (.star (.alternation (.literal 'b') (.literal 'c')))) ∧
      IsExpression (tokens "a.(b+c)*".toList)
        (.concatenation (.literal 'a') (.star (.alternation (.literal 'b') (.literal 'c')))) := by
  obtain ⟨-, hreads, hunique, hfolds⟩ := parse_reads_grammar "a.(b+c)*".toList
  have hnodes : transcribe "a.(b+c)*".toList = .ok [.literal 'a', .literal 'b', .literal 'c',
      .alternation, .star, .concatenation] := by
    cbv
  have htree : IsExpression (tokens "a.(b+c)*".toList)
      (.concatenation (.literal 'a') (.star (.alternation (.literal 'b') (.literal 'c')))) :=
    (hreads _).mp (by cbv)
  obtain ⟨r, hfold, hr, -⟩ := hfolds _ hnodes
  rw [hunique r _ hr htree] at hfold
  exact ⟨hfold, htree⟩

end LanguageTheory.Regex
