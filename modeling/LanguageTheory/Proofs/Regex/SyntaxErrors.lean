import LanguageTheory.Proofs.Regex.Failures
import LanguageTheory.Proofs.Regex.Printing
import LanguageTheory.Proofs.Regex.Transcription

/-!
# Syntax errors

Where reading a text fails, and with which error. The place is the earliest possible one: the
characters before it can be continued to an expression, and those up to and with it cannot; if all
characters can be continued, it is the end of the text or a parenthesis that is not closed.
-/

namespace LanguageTheory.Regex

open Progress

variable {cs ds taken rest taken' rest' : List Char} {c : Char} {e : Error} {p : Progress}
  {ts us : List Token} {r : Regex} {position : Nat}

/-- Reading a text stops after the characters that were taken: they can be continued to an
expression, and together with the next character, if there is one, they cannot. -/
structure StopsAt (cs taken rest : List Char) : Prop where
  split : cs = taken ++ rest
  viable : Viable (tokens taken)
  stuck : ∀ c ∈ rest.head?, isBlank c = false ∧ ¬ Viable (tokens (taken ++ [c]))

/-- After the innermost parenthesis that is not closed, the text goes on with an expression. -/
def EndsUnclosed (cs : List Char) (position : Nat) : Prop :=
  (unclosed cs).head? = some position ∧ ∃ r, IsExpression (tokens (cs.drop (position + 1))) r

/-- A parenthesis has no partner: the next one closes none that is open, or there is no next
character and some parenthesis is still open. -/
def Unmatched (taken rest : List Char) : Prop :=
  rest.head? = some ')' ∧ unclosed taken = [] ∨ rest = [] ∧ unclosed taken ≠ []

/-! ### Tokens of a text -/

/-- The tokens of two texts, one after the other. -/
theorem lexemes_append (position : Nat) (cs ds : List Char) :
    lexemes position (cs ++ ds) = lexemes position cs ++ lexemes (position + cs.length) ds := by
  induction cs generalizing position with
  | nil => rfl
  | cons c cs ih =>
    rw [List.cons_append, lexemes, lexemes, ih, List.length_cons, Nat.add_right_comm, Nat.add_assoc]
    split <;> rfl

/-- A character that is no blank is a token. -/
theorem lexemes_cons (h : isBlank c = false) (position : Nat) (cs : List Char) :
    lexemes position (c :: cs) = ⟨position, .ofChar c⟩ :: lexemes (position + 1) cs := by
  rw [lexemes, if_neg (by simp [h])]

/-- A token of a text is one of its characters, with the number of characters before it as its
position. -/
theorem exists_of_lexemes_eq {position : Nat} {xs ys : List Lexeme} {l : Lexeme}
    (h : lexemes position cs = xs ++ l :: ys) : ∃ before c after,
      cs = before ++ c :: after ∧ isBlank c = false ∧ lexemes position before = xs ∧
        l = ⟨position + before.length, .ofChar c⟩ ∧
        lexemes (position + before.length + 1) after = ys := by
  induction cs generalizing position xs with
  | nil => simp [lexemes] at h
  | cons c cs ih =>
    have hlength : ∀ before : List Char,
        position + 1 + before.length = position + (c :: before).length := by
      intro before
      rw [List.length_cons]
      omega
    by_cases hc : isBlank c = true
    · rw [lexemes, if_pos hc] at h
      obtain ⟨before, d, after, rfl, hd, hxs, hl, hys⟩ := ih h
      rw [hlength] at hl hys
      exact ⟨c :: before, d, after, rfl, hd, by rw [lexemes, if_pos hc, hxs], hl, hys⟩
    · rw [Bool.not_eq_true] at hc
      rw [lexemes_cons hc] at h
      cases xs with
      | nil =>
        obtain ⟨rfl, rfl⟩ := List.cons.inj h
        exact ⟨[], c, cs, rfl, hc, rfl, rfl, rfl⟩
      | cons x xs =>
        obtain ⟨rfl, htail⟩ := List.cons.inj h
        obtain ⟨before, d, after, rfl, hd, hxs, hl, hys⟩ := ih htail
        rw [hlength] at hl hys
        exact ⟨c :: before, d, after, rfl, hd, by rw [lexemes_cons hc, hxs], hl, hys⟩

/-- Whether a text can be continued depends on the progress after its tokens. -/
theorem viable_tokens_iff :
    Viable (tokens cs) ↔ ∃ p, start.after? (lexemes 0 cs) = some p := by
  rw [← map_token_lexemes 0 cs, viable_iff]

/-- What can be continued can be continued after its first characters. -/
theorem viable_of_viable_append (h : Viable (tokens (cs ++ ds))) : Viable (tokens cs) := by
  obtain ⟨more, r, hr⟩ := h
  rw [tokens_append, List.append_assoc] at hr
  exact ⟨_, r, hr⟩

/-- Reading a text stops at one place only. -/
theorem StopsAt.unique (h : StopsAt cs taken rest) (h' : StopsAt cs taken' rest') :
    taken = taken' ∧ rest = rest' := by
  have hle : ∀ {taken rest taken' rest'}, StopsAt cs taken rest → StopsAt cs taken' rest' →
      ¬ ∃ c more, taken' = taken ++ c :: more ∧ rest = c :: more ++ rest' := by
    rintro taken rest taken' rest' h h' ⟨c, more, rfl, rfl⟩
    have hviable : Viable (tokens ((taken ++ [c]) ++ more)) := by
      rw [List.append_assoc]
      exact h'.viable
    exact (h.stuck c rfl).2 (viable_of_viable_append hviable)
  rcases List.append_eq_append_iff.mp (h.split.symm.trans h'.split) with
    ⟨more, rfl, rfl⟩ | ⟨more, rfl, rfl⟩
  · cases more with
    | nil => simp
    | cons c more => exact absurd ⟨c, more, rfl, rfl⟩ (hle h h')
  · cases more with
    | nil => simp
    | cons c more => exact absurd ⟨c, more, rfl, rfl⟩ (hle h' h)

/-! ### Where reading stops -/

/-- Reading stops at a character that is no blank and cannot follow. -/
theorem stopsAt_cons (taken : List Char) (c : Char) (rest : List Char)
    (hp : start.after? (lexemes 0 taken) = some p) (hc : isBlank c = false)
    (hnext : p.next? ⟨taken.length, .ofChar c⟩ = none) :
    StopsAt (taken ++ c :: rest) taken (c :: rest) := by
  refine ⟨rfl, viable_tokens_iff.mpr ⟨p, hp⟩, ?_⟩
  rintro _ ⟨⟩
  refine ⟨hc, fun hviable ↦ ?_⟩
  obtain ⟨q, hq⟩ := viable_tokens_iff.mp hviable
  rw [lexemes_append, Nat.zero_add, lexemes_cons hc, after?_append, hp, Option.bind_some,
    after?_cons, hnext] at hq
  cases hq

/-- Reading stops at the end of a text that can be continued. -/
theorem stopsAt_end (hp : start.after? (lexemes 0 cs) = some p) : StopsAt cs cs [] :=
  ⟨(List.append_nil cs).symm, viable_tokens_iff.mpr ⟨p, hp⟩, by simp⟩

/-- A text that is not read is taken up to the place where reading stops, and what is reported is
what the progress up to there says. -/
theorem exists_stopsAt_of_transcribe (h : transcribe cs = .error e) : ∃ taken rest p,
    StopsAt cs taken rest ∧ start.after? (lexemes 0 taken) = some p ∧
      p.IsStuck (lexemes taken.length rest) ∧ p.Encloses (lexemes 0 taken) ∧
        e = p.failure cs.length (lexemes taken.length rest) := by
  have hread : readWhole cs.length (lexemes 0 cs) = .error e := by
    rw [← parse_eq_readWhole]
    rw [transcribe_eq] at h
    cases hparse : parse cs with
    | error e' =>
      rw [hparse] at h
      cases h
      rfl
    | ok r =>
      rw [hparse] at h
      cases h
  obtain ⟨used, ls, p, hcs, hused, hstuck, hencloses, he⟩ := getsStuck_of_readWhole hread
  cases ls with
  | nil =>
    rw [List.append_nil] at hcs
    subst hcs
    exact ⟨cs, [], p, stopsAt_end hused, hused, hstuck, hencloses, he⟩
  | cons l ls =>
    obtain ⟨before, c, after, rfl, hc, rfl, rfl, rfl⟩ := exists_of_lexemes_eq hcs
    rw [Nat.zero_add] at hstuck he
    have hrest : lexemes before.length (c :: after) =
        ⟨before.length, .ofChar c⟩ :: lexemes (before.length + 1) after := lexemes_cons hc _ _
    exact ⟨before, c :: after, p, stopsAt_cons before c after hused hc (hstuck.blocked _ rfl),
      hused, hrest ▸ hstuck, hencloses, hrest ▸ he⟩

/-- The parentheses that are open after some characters are those that are not closed. -/
theorem opened_eq_unclosed (h : start.after? (lexemes 0 cs) = some p) : p.opened = unclosed cs :=
  opened_of_after? h

/-- An operand is complete after characters that end with one. -/
theorem complete_iff (h : start.after? (lexemes 0 cs) = some p) :
    p.complete = true ↔ EndsOperand (tokens cs) := by
  rw [complete_of_after? h, map_token_lexemes]

/-- An expression ends with an operand. -/
theorem IsExpression.endsOperand (h : IsExpression (tokens cs) r) : EndsOperand (tokens cs) := by
  rw [← map_token_lexemes 0] at h
  exact (complete_iff (after?_of_isExpression h rfl)).mp rfl

/-- What ends with an operand does so whatever stands before. -/
theorem EndsOperand.append (h : EndsOperand us) (ts : List Token) : EndsOperand (ts ++ us) := by
  obtain ⟨t, ht, hmem⟩ := h
  exact ⟨t, by rw [List.getLast?_append, ht]; rfl, hmem⟩

/-- Where an operand is complete and a parenthesis open, an expression follows the innermost one. -/
theorem endsUnclosed_of_encloses {outer : List Nat}
    (h : start.after? (lexemes 0 cs) = some ⟨position :: outer, true⟩)
    (hencloses : Progress.Encloses ⟨position :: outer, true⟩ (lexemes 0 cs)) :
    EndsUnclosed cs position := by
  obtain ⟨before, inside, r, hcs, hr⟩ := hencloses position outer rfl
  refine ⟨by rw [← opened_eq_unclosed h, List.head?_cons], r, ?_⟩
  obtain ⟨before, c, after, rfl, -, -, hl, rfl⟩ := exists_of_lexemes_eq hcs
  obtain rfl : position = before.length := by simpa using congrArg Lexeme.position hl
  rw [map_token_lexemes] at hr
  simpa using hr

/-- A text that ends with an expression after a parenthesis ends with an operand. -/
theorem EndsUnclosed.endsOperand (h : EndsUnclosed cs position) : EndsOperand (tokens cs) := by
  obtain ⟨-, r, hr⟩ := h
  rw [← List.take_append_drop (position + 1) cs, tokens_append]
  exact hr.endsOperand.append _

/-! ### Places and kinds of errors -/

/-- The error of a text that is not read is at the earliest possible place: at a token such that the
tokens before it can be extended to an expression and those up to and with it cannot; or all tokens
can be extended, and the error is at the innermost parenthesis that is not closed if an expression
follows it, and at the end of the text otherwise. -/
theorem transcribe_error_isEarliest (h : transcribe cs = .error e) :
    (∃ before c after, cs = before ++ c :: after ∧ isBlank c = false ∧
      Viable (tokens before) ∧ ¬ Viable (tokens (before ++ [c])) ∧
        (e = .unexpectedToken before.length c.toString ∨
          e = .unbalancedParentheses before.length ∧ c = ')')) ∨
    Viable (tokens cs) ∧
      ((∃ position, EndsUnclosed cs position ∧ e = .unbalancedParentheses position) ∨
        (∀ position, ¬ EndsUnclosed cs position) ∧
          e = .unexpectedToken cs.length "end of input") := by
  obtain ⟨taken, rest, p, hstop, hp, hstuck, hencloses, rfl⟩ := exists_stopsAt_of_transcribe h
  obtain ⟨rfl, hviable, hnext⟩ := hstop
  cases rest with
  | nil =>
    rw [List.append_nil]
    refine .inr ⟨hviable, ?_⟩
    rcases hstuck.failure_nil taken.length with ⟨position, outer, rfl, he⟩ | ⟨hmissing, he⟩
    · exact .inl ⟨position, endsUnclosed_of_encloses hp hencloses, he⟩
    · refine .inr ⟨fun position hends ↦ ?_, he⟩
      rw [(complete_iff hp).mpr hends.endsOperand] at hmissing
      cases hmissing
  | cons c after =>
    obtain ⟨hc, hnot⟩ := hnext c rfl
    refine .inl ⟨taken, c, after, rfl, hc, hviable, hnot, ?_⟩
    rw [lexemes_cons hc] at hstuck ⊢
    rcases hstuck.failure_cons (taken ++ c :: after).length with ⟨-, hclose, he⟩ | ⟨-, he⟩
    · exact .inr ⟨he, Token.ofChar_eq_rightParen_iff.mp hclose⟩
    · exact .inl (he.trans (by rw [Token.toChar_ofChar]))

/-- A second operand is reported where it begins, though blanks stand before it and parentheses are
open; without it, the innermost parenthesis is reported. -/
theorem transcribe_error_isEarliest_nested :
    (transcribe "( a.(b c".toList = .error (.unexpectedToken 7 "c") ∧
      Viable (tokens "( a.(b ".toList) ∧ ¬ Viable (tokens "( a.(b c".toList)) ∧
    transcribe "( a.(b ".toList = .error (.unbalancedParentheses 4) ∧
      EndsUnclosed "( a.(b ".toList 4 := by
  have hsecond : transcribe "( a.(b c".toList = .error (.unexpectedToken 7 "c") := by cbv
  have hunclosed : transcribe "( a.(b ".toList = .error (.unbalancedParentheses 4) := by cbv
  refine ⟨⟨hsecond, ?_⟩, hunclosed, ?_⟩
  · rcases transcribe_error_isEarliest hsecond with ⟨before, c, after, hcs, -, hbefore, hnot, he⟩ |
      ⟨-, ⟨position, -, he⟩ | ⟨-, he⟩⟩
    · have hlength : before.length = 7 := by
        rcases he with he | ⟨he, -⟩
        · exact (Error.unexpectedToken.inj he).1.symm
        · cases he
      have hsplit : "( a.(b ".toList ++ ['c'] = before ++ c :: after := hcs
      obtain ⟨rfl, htail⟩ := List.append_inj hsplit hlength.symm
      obtain ⟨rfl, -⟩ := List.cons.inj htail
      exact ⟨hbefore, hnot⟩
    · cases he
    · cases he
  · rcases transcribe_error_isEarliest hunclosed with ⟨before, c, after, hcs, -, -, -, he⟩ |
      ⟨-, ⟨position, hends, he⟩ | ⟨-, he⟩⟩
    · obtain ⟨hlength, rfl⟩ : 4 = before.length ∧ c = ')' := by
        rcases he with he | ⟨he, hc⟩
        · cases he
        · exact ⟨Error.unbalancedParentheses.inj he, hc⟩
      have hsplit : "( a.".toList ++ "(b ".toList = before ++ ')' :: after := hcs
      obtain ⟨-, htail⟩ := List.append_inj hsplit hlength
      cases htail
    · cases he
      exact hends
    · cases he

/-- Reading a text that is not read stops at one place. The error there is that a parenthesis has no
partner when an operand is complete and the next character is a parenthesis that closes none, or the
text ends with a parenthesis open; in all other cases it is that a token is unexpected. -/
theorem transcribe_error_kind (h : transcribe cs = .error e) :
    (∃ taken rest, StopsAt cs taken rest) ∧ ∀ taken rest, StopsAt cs taken rest →
      (EndsOperand (tokens taken) ∧ Unmatched taken rest →
        ∃ position, e = .unbalancedParentheses position) ∧
      (¬ (EndsOperand (tokens taken) ∧ Unmatched taken rest) →
        ∃ position found, e = .unexpectedToken position found) := by
  obtain ⟨taken, rest, p, hstop, hp, hstuck, -, rfl⟩ := exists_stopsAt_of_transcribe h
  refine ⟨⟨taken, rest, hstop⟩, fun taken' rest' hstop' ↦ ?_⟩
  obtain ⟨rfl, rfl⟩ := hstop.unique hstop'
  rw [← complete_iff hp, Unmatched, ← opened_eq_unclosed hp]
  cases rest with
  | nil =>
    rcases hstuck.failure_nil cs.length with ⟨position, outer, rfl, he⟩ | ⟨hmissing, he⟩
    · refine ⟨fun _ ↦ ⟨position, he⟩, fun hnot ↦ absurd ⟨rfl, .inr ⟨rfl, ?_⟩⟩ hnot⟩
      exact List.cons_ne_nil position outer
    · refine ⟨fun hunmatched ↦ ?_, fun _ ↦ ⟨_, _, he⟩⟩
      rw [hunmatched.1] at hmissing
      cases hmissing
  | cons c after =>
    obtain ⟨hc, -⟩ := hstop.stuck c rfl
    rw [lexemes_cons hc] at hstuck ⊢
    rcases hstuck.failure_cons cs.length with ⟨rfl, hclose, he⟩ | ⟨hother, he⟩
    · refine ⟨fun _ ↦ ⟨_, he⟩, fun hnot ↦ absurd ⟨rfl, .inl ⟨?_, rfl⟩⟩ hnot⟩
      rw [List.head?_cons, Token.ofChar_eq_rightParen_iff.mp hclose]
    · refine ⟨?_, fun _ ↦ ⟨_, _, he⟩⟩
      rintro ⟨hcomplete, ⟨hhead, -⟩ | ⟨hempty, -⟩⟩
      · exact absurd ⟨hcomplete, Token.ofChar_eq_rightParen_iff.mpr (Option.some.inj hhead)⟩ hother
      · cases hempty

/-- A parenthesis that closes none is unbalanced after an operand. -/
theorem transcribe_error_kind_unopened : StopsAt "a.b)".toList "a.b".toList [')'] ∧
    ∃ position, transcribe "a.b)".toList = .error (.unbalancedParentheses position) := by
  have hstop : StopsAt "a.b)".toList "a.b".toList [')'] :=
    stopsAt_cons "a.b".toList ')' [] (p := ⟨[], true⟩) (by cbv) (by decide) (by cbv)
  have hread : transcribe "a.b)".toList = .error (.unbalancedParentheses 3) := by cbv
  obtain ⟨-, hkind⟩ := transcribe_error_kind hread
  have hends : EndsOperand (tokens "a.b".toList) := ⟨.literal 'b', by cbv, by decide⟩
  obtain ⟨position, he⟩ := (hkind _ _ hstop).1 ⟨hends, .inl ⟨rfl, by cbv⟩⟩
  exact ⟨hstop, position, he ▸ hread⟩

/-- Where an operand is missing, a parenthesis without a partner is not reported as unbalanced,
neither one that closes none nor one that stays open. -/
theorem not_unbalanced_of_missingOperand :
    (StopsAt [')'] [] [')'] ∧ Unmatched [] [')'] ∧
      transcribe [')'] = .error (.unexpectedToken 0 ")")) ∧
    StopsAt ['('] ['('] [] ∧ Unmatched ['('] [] ∧
      transcribe ['('] = .error (.unexpectedToken 1 "end of input") := by
  refine ⟨⟨?_, .inl ⟨rfl, by cbv⟩, by cbv⟩, ?_, .inr ⟨rfl, by decide⟩, by cbv⟩
  · exact stopsAt_cons [] ')' [] (p := start) rfl (by decide) rfl
  · exact stopsAt_end (p := ⟨[0], false⟩) (by cbv)

end LanguageTheory.Regex
