import LanguageTheory.Proofs.Regex.Progress

/-!
# Readers that fail

A reader that fails has taken tokens as long as they can stand where they do. It is stuck at a token
that cannot follow, or at the end of the tokens, where an expression is not complete; and what it
reports is determined by how far it has come. Tokens are therefore viable exactly when each of them
can stand where it does.
-/

namespace LanguageTheory.Regex

open Progress

variable {stop : Nat} {ls rest : List Lexeme} {l : Lexeme} {t : Token} {ts : List Token} {r : Regex}
  {e : Error} {cs : List Char} {opened : List Nat}

/-! ### Readers that fail -/

/-- The failure of a reader that has come so far and can take no more tokens. -/
def Progress.failure (stop : Nat) : Progress → List Lexeme → Error
  | ⟨_, false⟩, rest => missingOperand stop rest
  | ⟨position :: _, true⟩, [] => .unbalancedParentheses position
  | ⟨_, true⟩, rest => leftover stop rest

/-- No token can follow, and an expression is not complete either. -/
structure Progress.IsStuck (p : Progress) (rest : List Lexeme) : Prop where
  blocked : ∀ l ∈ rest.head?, p.next? l = none
  unfinished : rest = [] → p ≠ ⟨[], true⟩

/-- At the end of the tokens, the innermost open parenthesis is reported if an operand is complete,
and the end itself otherwise. -/
theorem Progress.IsStuck.failure_nil {p : Progress} (h : p.IsStuck []) (stop : Nat) :
    (∃ position outer, p = ⟨position :: outer, true⟩ ∧
      p.failure stop [] = .unbalancedParentheses position) ∨
    p.complete = false ∧ p.failure stop [] = .unexpectedToken stop "end of input" := by
  obtain ⟨opened, complete⟩ := p
  cases complete with
  | false => exact .inr ⟨rfl, rfl⟩
  | true =>
    cases opened with
    | nil => exact absurd rfl (h.unfinished rfl)
    | cons position outer => exact .inl ⟨position, outer, rfl, rfl⟩

/-- A token that cannot follow is reported at its place: as unbalanced if it is a parenthesis after
a complete operand, where none is open, and as unexpected otherwise. -/
theorem Progress.IsStuck.failure_cons {p : Progress} (h : p.IsStuck (l :: ls)) (stop : Nat) :
    (p = ⟨[], true⟩ ∧ l.token = .rightParen ∧
      p.failure stop (l :: ls) = .unbalancedParentheses l.position) ∨
    ¬ (p.complete = true ∧ l.token = .rightParen) ∧
      p.failure stop (l :: ls) = .unexpectedToken l.position l.token.toChar.toString := by
  have hblocked : p.next? l = none := h.blocked l rfl
  obtain ⟨opened, complete⟩ := p
  obtain ⟨position, token⟩ := l
  cases complete with
  | false => exact .inr ⟨by simp, rfl⟩
  | true =>
    by_cases htoken : token = .rightParen
    · subst htoken
      obtain rfl : opened = [] := opened_eq_nil_of_next?_eq_none rfl rfl hblocked
      exact .inl ⟨rfl, rfl, rfl⟩
    · refine .inr ⟨fun hclose ↦ htoken hclose.2, ?_⟩
      cases opened <;> cases token <;> first | rfl | exact absurd rfl htoken

/-- Where an operand is complete, an expression stands after the innermost open parenthesis. -/
def Progress.Encloses (p : Progress) (used : List Lexeme) : Prop :=
  ∀ position outer, p = ⟨position :: outer, true⟩ → ∃ before inside r,
    used = before ++ ⟨position, .leftParen⟩ :: inside ∧ IsExpression (inside.map Lexeme.token) r

/-- A reader that begins inside some parentheses takes tokens until it is stuck, and reports where
that is. -/
def GetsStuck (stop : Nat) (opened : List Nat) (ls : List Lexeme) (e : Error) : Prop :=
  ∃ used rest p, ls = used ++ rest ∧ after? ⟨opened, false⟩ used = some p ∧ p.IsStuck rest ∧
    p.Encloses used ∧ e = p.failure stop rest

/-- Tokens that were taken before do not matter. -/
theorem GetsStuck.append {used : List Lexeme} {opened' : List Nat}
    (hused : after? ⟨opened, false⟩ used = some ⟨opened', false⟩)
    (h : GetsStuck stop opened' ls e) : GetsStuck stop opened (used ++ ls) e := by
  obtain ⟨more, rest, p, rfl, hmore, hstuck, hencloses, he⟩ := h
  refine ⟨used ++ more, rest, p, (List.append_assoc _ _ _).symm, ?_, hstuck, ?_, he⟩
  · rw [after?_append, hused]
    exact hmore
  · intro position outer hp
    obtain ⟨before, inside, r, rfl, hr⟩ := hencloses position outer hp
    exact ⟨used ++ before, inside, r, (List.append_assoc _ _ _).symm, hr⟩

/-- A reader cannot take any token where an operand has to begin and none does. -/
theorem getsStuck_missingOperand (opened : List Nat)
    (h : ∀ l ∈ ls.head?, l.token ∈ [.rightParen, .plus, .dot, .star]) :
    GetsStuck stop opened ls (missingOperand stop ls) := by
  refine ⟨[], ls, ⟨opened, false⟩, rfl, rfl, ⟨?_, fun _ ↦ by simp⟩, fun _ _ ↦ by simp, rfl⟩
  exact fun l hl ↦ next?_of_not_complete rfl (h l hl)

/-- Two operands are not read when the first one is not, or else the second one is not. -/
theorem error_of_chain {first : Except Error (Front ls)} {join : Regex → Regex → Regex}
    {second : (rest : List Lexeme) → Except Error (Front rest)}
    (h : chain first t join second = .error e) : first = .error e ∨
      ∃ left l more, Gives first left (l :: more) ∧ l.token = t ∧ second more = .error e := by
  cases first with
  | error e' =>
    cases h
    exact .inl rfl
  | ok left =>
    unfold chain at h
    dsimp only at h
    split at h
    · cases h
    · next more hlt hskip =>
      obtain ⟨l, hrest, hl⟩ := eq_cons_of_skip? hskip
      split at h
      · next e' hsecond =>
        cases h
        exact .inr ⟨_, l, more, ⟨left, rfl, rfl, hrest⟩, hl, hsecond⟩
      · cases h

/-- A factor is not read when its primary is not. -/
theorem error_of_factor (h : factor stop ls = .error e) : primary stop ls = .error e := by
  rw [factor] at h
  split at h
  · next hprimary =>
    cases h
    exact hprimary
  · cases h

/-- A primary is not read where no operand begins, or when what a parenthesis opens is not read or
not closed. -/
theorem error_of_primary (h : primary stop ls = .error e) :
    (∀ l ∈ ls.head?, l.token ∈ [.rightParen, .plus, .dot, .star]) ∧ e = missingOperand stop ls ∨
      ∃ position inside, ls = ⟨position, .leftParen⟩ :: inside ∧
        (expression stop inside = .error e ∨
          ∃ r rest, Gives (expression stop inside) r rest ∧ Ends [.rightParen] rest ∧
            e = if rest.isEmpty then .unbalancedParentheses position else leftover stop rest) := by
  cases ls with
  | nil =>
    rw [primary] at h
    cases h
    exact .inl ⟨by simp, rfl⟩
  | cons l inside =>
    obtain ⟨position, token⟩ := l
    rw [primary] at h
    split at h
    · next hopen =>
      obtain rfl : token = .leftParen := hopen
      refine .inr ⟨position, inside, rfl, ?_⟩
      split at h
      · next hinside =>
        cases h
        exact .inl hinside
      · next inner hinside =>
        split at h
        · cases h
        · next hskip =>
          refine .inr ⟨_, inner.rest, ⟨inner, hinside, rfl, rfl⟩, skip?_eq_none_iff.mp hskip, ?_⟩
          split at h
          · next hempty =>
            cases h
            rw [if_pos hempty]
          · next hempty =>
            cases h
            rw [if_neg hempty]
    · cases h
    · cases h
    · next hleft hepsilon hliteral =>
      cases h
      refine .inl ⟨?_, rfl⟩
      rintro _ ⟨⟩
      cases token with
      | leftParen => exact absurd rfl hleft
      | epsilon => exact absurd rfl hepsilon
      | literal c => exact absurd rfl (hliteral c)
      | _ => simp

/-- A reader is stuck after an expression in parentheses that are not closed there. -/
theorem getsStuck_unclosed {position : Nat} {inside : List Lexeme}
    (h : Gives (expression stop inside) r rest) (hclose : Ends [.rightParen] rest) :
    GetsStuck stop opened (⟨position, .leftParen⟩ :: inside)
      (if rest.isEmpty then .unbalancedParentheses position else leftover stop rest) := by
  have hends := hclose.cons (ends_of_gives_expression h)
  obtain ⟨used, rfl, hexpression⟩ := isExpression_of_gives h
  refine ⟨⟨position, .leftParen⟩ :: used, rest, ⟨position :: opened, true⟩, rfl, ?_, ⟨?_, ?_⟩, ?_,
    ?_⟩
  · exact after?_of_isExpression hexpression rfl
  · intro l hl
    have hl := hends l hl
    refine next?_of_complete rfl (fun hmem ↦ hl ?_) fun heq ↦ absurd (heq ▸ List.mem_cons_self) hl
    exact List.mem_cons_of_mem _ hmem
  · exact fun _ ↦ by simp
  · rintro _ _ ⟨⟩
    exact ⟨[], used, r, rfl, hexpression⟩
  · cases rest <;> rfl

/-- A chain of operands that is not read is read until the reader is stuck, if each operand is. -/
theorem getsStuck_of_chain {first : Except Error (Front ls)} {join : Regex → Regex → Regex}
    {second : (rest : List Lexeme) → Except Error (Front rest)} (hjoin : t = .plus ∨ t = .dot)
    (h : chain first t join second = .error e)
    (hfirst : first = .error e → GetsStuck stop opened ls e)
    (htaken : ∀ left rest, Gives first left rest →
      ∃ used, ls = used ++ rest ∧ after? ⟨opened, false⟩ used = some ⟨opened, true⟩)
    (hsecond : ∀ more, more.length < ls.length → second more = .error e →
      GetsStuck stop opened more e) : GetsStuck stop opened ls e := by
  rcases error_of_chain h with hleft | ⟨left, l, more, hleft, hl, hright⟩
  · exact hfirst hleft
  · have hstuck := hsecond more (Nat.lt_of_succ_lt hleft.length_lt) hright
    obtain ⟨used, rfl, hused⟩ := htaken left _ hleft
    have htaken : after? ⟨opened, false⟩ (used ++ [l]) = some ⟨opened, false⟩ := by
      rw [after?_append, hused, Option.bind_some, after?_cons, next?_of_join hjoin hl]
      rfl
    rw [List.append_cons]
    exact hstuck.append htaken

mutual

/-- An expression that is not read is read until the reader is stuck. -/
theorem getsStuck_of_expression {ls : List Lexeme} {opened : List Nat}
    (h : expression stop ls = .error e) : GetsStuck stop opened ls e := by
  rw [expression_eq_chain] at h
  refine getsStuck_of_chain (.inl rfl) h getsStuck_of_term (fun left rest hleft ↦ ?_)
    fun more hlt hright ↦ getsStuck_of_expression hright
  obtain ⟨used, hls, hterm⟩ := isTerm_of_gives hleft
  exact ⟨used, hls, after?_of_isTerm hterm rfl⟩
termination_by (ls.length, 3)

/-- A term that is not read is read until the reader is stuck. -/
theorem getsStuck_of_term {ls : List Lexeme} {opened : List Nat}
    (h : term stop ls = .error e) : GetsStuck stop opened ls e := by
  rw [term_eq_chain] at h
  refine getsStuck_of_chain (.inr rfl) h (fun hfactor ↦ ?_) (fun left rest hleft ↦ ?_)
    fun more hlt hright ↦ getsStuck_of_term hright
  · exact getsStuck_of_primary (error_of_factor hfactor)
  · obtain ⟨used, hls, hfactor⟩ := isFactor_of_gives hleft
    exact ⟨used, hls, after?_of_isFactor hfactor rfl⟩
termination_by (ls.length, 2)

/-- A primary that is not read is read until the reader is stuck. -/
theorem getsStuck_of_primary {ls : List Lexeme} {opened : List Nat}
    (h : primary stop ls = .error e) : GetsStuck stop opened ls e := by
  rcases error_of_primary h with ⟨hhead, rfl⟩ | ⟨position, inside, rfl, hinside⟩
  · exact getsStuck_missingOperand opened hhead
  · rcases hinside with hinside | ⟨r, rest, hgives, hclose, rfl⟩
    · have hused : after? ⟨opened, false⟩ [⟨position, .leftParen⟩] =
          some ⟨position :: opened, false⟩ := rfl
      exact (getsStuck_of_expression hinside).append hused
    · exact getsStuck_unclosed hgives hclose
termination_by (ls.length, 1)

end

/-! ### Whole texts -/

/-- Reads an expression that spans all tokens. -/
def readWhole (stop : Nat) (ls : List Lexeme) : Except Error Regex :=
  match expression stop ls with
  | .error e => .error e
  | .ok front =>
    if front.rest.isEmpty then .ok front.regex else .error (leftover stop front.rest)

/-- A text is read as a whole. -/
theorem parse_eq_readWhole (cs : List Char) :
    parse cs = readWhole cs.length (lexemes 0 cs) := by
  unfold parse readWhole
  cases expression cs.length (lexemes 0 cs) <;> rfl

/-- All tokens are those of the expression that is read. -/
theorem isExpression_of_readWhole (h : readWhole stop ls = .ok r) :
    IsExpression (ls.map Lexeme.token) r := by
  unfold readWhole at h
  split at h
  · cases h
  · next front hfront =>
    split at h
    · next hempty =>
      cases h
      have hgives : Gives (expression stop ls) front.regex [] :=
        ⟨front, hfront, rfl, List.isEmpty_iff.mp hempty⟩
      obtain ⟨used, hused, hr⟩ := isExpression_of_gives hgives
      obtain rfl : ls = used := hused.trans (List.append_nil used)
      exact hr
    · cases h

/-- Tokens that are not read as a whole are read until the reader is stuck. -/
theorem getsStuck_of_readWhole (h : readWhole stop ls = .error e) : GetsStuck stop [] ls e := by
  unfold readWhole at h
  split at h
  · next hexpression =>
    cases h
    exact getsStuck_of_expression hexpression
  · next front hfront =>
    split at h
    · cases h
    · next hrest =>
      cases h
      have hgives : Gives (expression stop ls) front.regex front.rest := ⟨front, hfront, rfl, rfl⟩
      have hends := ends_of_gives_expression hgives
      obtain ⟨used, hused, hr⟩ := isExpression_of_gives hgives
      refine ⟨used, front.rest, ⟨[], true⟩, hused, after?_of_isExpression hr rfl, ⟨?_, ?_⟩, ?_, ?_⟩
      · exact fun l hl ↦ next?_of_complete rfl (hends l hl) fun _ ↦ rfl
      · exact fun hempty ↦ absurd (List.isEmpty_iff.mpr hempty) hrest
      · exact fun _ _ ↦ by simp
      · rfl

/-- An expression is not complete where a reader is stuck, and cannot become so. -/
theorem Progress.IsStuck.after?_ne {p : Progress} (h : p.IsStuck rest) :
    p.after? rest ≠ some ⟨[], true⟩ := by
  cases rest with
  | nil => exact fun hp ↦ h.unfinished rfl (Option.some.inj hp)
  | cons l rest =>
    rw [after?_cons, h.blocked l rfl]
    exact fun hnone ↦ by cases hnone

/-- Tokens are those of an expression exactly when they leave an operand complete and no parenthesis
open. -/
theorem exists_isExpression_iff :
    (∃ r, IsExpression (ls.map Lexeme.token) r) ↔ start.after? ls = some ⟨[], true⟩ := by
  refine ⟨fun ⟨r, hr⟩ ↦ after?_of_isExpression hr rfl, fun h ↦ ?_⟩
  cases hread : readWhole 0 ls with
  | ok r => exact ⟨r, isExpression_of_readWhole hread⟩
  | error e =>
    obtain ⟨used, rest, p, rfl, hused, hstuck, -, -⟩ := getsStuck_of_readWhole hread
    rw [after?_append, show start.after? used = some p from hused] at h
    exact absurd h hstuck.after?_ne

/-- An operand can be completed and all parentheses can be closed. -/
theorem Progress.exists_after?_eq_done (p : Progress) : ∃ ls, p.after? ls = some ⟨[], true⟩ := by
  have hclose : ∀ opened, ∃ ls, after? ⟨opened, true⟩ ls = some ⟨[], true⟩ := by
    intro opened
    induction opened with
    | nil => exact ⟨[], rfl⟩
    | cons position opened ih =>
      obtain ⟨ls, hls⟩ := ih
      exact ⟨⟨0, .rightParen⟩ :: ls, hls⟩
  obtain ⟨opened, complete⟩ := p
  obtain ⟨ls, hls⟩ := hclose opened
  cases complete with
  | true => exact ⟨ls, hls⟩
  | false => exact ⟨⟨0, .epsilon⟩ :: ls, hls⟩

/-- Tokens can be extended to an expression exactly when each of them can stand where it does. -/
theorem viable_iff : Viable (ls.map Lexeme.token) ↔ ∃ p, start.after? ls = some p := by
  constructor
  · rintro ⟨more, r, hr⟩
    have hmore : (ls ++ more.map (Lexeme.mk 0)).map Lexeme.token =
        ls.map Lexeme.token ++ more := by
      simp [Function.comp_def]
    have hdone : start.after? (ls ++ more.map (Lexeme.mk 0)) = some ⟨[], true⟩ :=
      after?_of_isExpression hr hmore
    rw [after?_append, Option.bind_eq_some_iff] at hdone
    obtain ⟨p, hp, -⟩ := hdone
    exact ⟨p, hp⟩
  · rintro ⟨p, hp⟩
    obtain ⟨more, hmore⟩ := p.exists_after?_eq_done
    have hdone : start.after? (ls ++ more) = some ⟨[], true⟩ := by
      rw [after?_append, hp]
      exact hmore
    obtain ⟨r, hr⟩ := exists_isExpression_iff.mpr hdone
    rw [List.map_append] at hr
    exact ⟨_, r, hr⟩

end LanguageTheory.Regex
