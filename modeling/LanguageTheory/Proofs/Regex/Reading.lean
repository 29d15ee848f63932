import LanguageTheory.Regex.Syntax

/-!
# The expressions that are read

Reading a text gives an expression exactly when the tokens of the text are this expression by the
grammar. A reader that gives an expression has taken the tokens of a derivation from the front; and
it takes all tokens of a derivation when the next one cannot continue it.
-/

namespace LanguageTheory.Regex

variable {stop : Nat} {ls rest used : List Lexeme} {l : Lexeme} {t : Token} {ts : List Token}
  {r : Regex} {cs : List Char}

/-! ### What a reader gives -/

/-- A reader gives an expression and leaves the rest of the tokens. -/
def Gives (x : Except Error (Front ls)) (r : Regex) (rest : List Lexeme) : Prop :=
  ∃ front, x = .ok front ∧ front.regex = r ∧ front.rest = rest

/-- The next token is none of the given ones. -/
def Ends (ts : List Token) (ls : List Lexeme) : Prop := ∀ l ∈ ls.head?, l.token ∉ ts

/-- Fewer tokens are excluded. -/
theorem Ends.mono {us : List Token} (h : Ends ts ls) (hsub : us ⊆ ts) : Ends us ls :=
  fun l hl hmem ↦ h l hl (hsub hmem)

/-- Another token follows. -/
theorem ends_cons (h : l.token ∉ ts) (ls : List Lexeme) : Ends ts (l :: ls) := by
  rintro _ ⟨⟩
  exact h

/-- A reader takes at least one token. -/
theorem Gives.length_lt {x : Except Error (Front ls)} (h : Gives x r rest) :
    rest.length < ls.length := by
  obtain ⟨front, _, _, rfl⟩ := h
  exact front.rest_lt

/-- Nothing is skipped when the next token is another one. -/
theorem skip?_eq_none_iff : skip? t ls = none ↔ Ends [t] ls := by
  cases ls with
  | nil => simp [skip?, Ends]
  | cons l ls => simp [skip?, Ends]

/-- The next token is skipped. -/
theorem eq_cons_of_skip? {x : { rest : List Lexeme // rest.length < ls.length }}
    (h : skip? t ls = some x) : ∃ l, ls = l :: x.1 ∧ l.token = t := by
  cases ls with
  | nil => cases h
  | cons l ls =>
    by_cases hl : l.token = t
    · rw [skip?, if_pos hl] at h
      cases h
      exact ⟨l, rfl, hl⟩
    · rw [skip?, if_neg hl] at h
      cases h

/-- Skipping the next token leaves the others. -/
theorem skip?_cons (hl : l.token = t) (ls : List Lexeme) :
    skip? t (l :: ls) = some ⟨ls, Nat.lt_succ_self _⟩ := if_pos hl

/-! ### Two operands -/

/-- Two operands and the token between them are taken from the front. -/
theorem rest_lt_of_operands (left : Front ls) (h : rest.length < left.rest.length)
    (right : Front rest) : right.rest.length < ls.length :=
  Nat.lt_trans right.rest_lt (Nat.lt_trans h left.rest_lt)

/-- Reads an operand, and a second one after a token that joins them. -/
def chain (first : Except Error (Front ls)) (t : Token) (join : Regex → Regex → Regex)
    (second : (rest : List Lexeme) → Except Error (Front rest)) : Except Error (Front ls) :=
  match first with
  | .error e => .error e
  | .ok left =>
    match skip? t left.rest with
    | none => .ok left
    | some ⟨rest, h⟩ =>
      match second rest with
      | .error e => .error e
      | .ok right =>
        .ok ⟨join left.regex right.regex, right.rest, rest_lt_of_operands left h right⟩

/-- An expression is a term, or a term, `+` and an expression. -/
theorem expression_eq_chain (stop : Nat) (ls : List Lexeme) :
    expression stop ls = chain (term stop ls) .plus alternation (expression stop) := by
  rw [expression]
  rfl

/-- A term is a factor, or a factor, `.` and a term. -/
theorem term_eq_chain (stop : Nat) (ls : List Lexeme) :
    term stop ls = chain (factor stop ls) .dot concatenation (term stop) := by
  rw [term]
  rfl

/-- One operand is given when the token that joins does not follow, and two otherwise. -/
theorem gives_chain_iff {first : Except Error (Front ls)} {join : Regex → Regex → Regex}
    {second : (rest : List Lexeme) → Except Error (Front rest)} :
    Gives (chain first t join second) r rest ↔
      Gives first r rest ∧ Ends [t] rest ∨
      ∃ left l more right, Gives first left (l :: more) ∧ l.token = t ∧
        Gives (second more) right rest ∧ r = join left right := by
  constructor
  · rintro ⟨front, hchain, rfl, rfl⟩
    cases first with
    | error e => cases hchain
    | ok left =>
      unfold chain at hchain
      dsimp only at hchain
      split at hchain
      · next hskip =>
        cases hchain
        exact .inl ⟨⟨front, rfl, rfl, rfl⟩, skip?_eq_none_iff.mp hskip⟩
      · next more hlt hskip =>
        obtain ⟨l, hrest, hl⟩ := eq_cons_of_skip? hskip
        split at hchain
        · cases hchain
        · next right hsecond =>
          cases hchain
          exact .inr ⟨_, l, more, _, ⟨left, rfl, rfl, hrest⟩, hl, ⟨right, hsecond, rfl, rfl⟩, rfl⟩
  · rintro (⟨⟨left, rfl, rfl, rfl⟩, hends⟩ | ⟨_, l, more, _, ⟨left, rfl, rfl, hrest⟩, hl,
      ⟨right, hsecond, rfl, rfl⟩, rfl⟩)
    · refine ⟨left, ?_, rfl, rfl⟩
      simp only [chain, skip?_eq_none_iff.mpr hends]
    · obtain ⟨regex, after, hlt⟩ := left
      dsimp only at hrest
      subst hrest
      have hless := Nat.lt_trans right.rest_lt (Nat.lt_trans (Nat.lt_succ_self _) hlt)
      refine ⟨⟨join regex right.regex, right.rest, hless⟩, ?_, rfl, rfl⟩
      simp only [chain, skip?_cons hl, hsecond]

/-! ### Repetition -/

/-- A factor is a primary and what the `*` after it make of it. -/
theorem gives_factor_iff : Gives (factor stop ls) r rest ↔ ∃ s after,
    Gives (primary stop ls) s after ∧ (stars s after).1 = r ∧ (stars s after).2.1 = rest := by
  rw [factor]
  constructor
  · rintro ⟨front, hfactor, rfl, rfl⟩
    split at hfactor
    · cases hfactor
    · next first hprimary =>
      cases hfactor
      exact ⟨_, _, ⟨first, hprimary, rfl, rfl⟩, rfl, rfl⟩
  · rintro ⟨_, _, ⟨first, hprimary, rfl, rfl⟩, rfl, rfl⟩
    rw [hprimary]
    exact ⟨_, rfl, rfl, rfl⟩

/-- A `*` repeats the expression before it. -/
theorem stars_cons (hl : l.token = .star) (r : Regex) (ls : List Lexeme) :
    (stars r (l :: ls)).1 = (stars (star r) ls).1 ∧
      (stars r (l :: ls)).2.1 = (stars (star r) ls).2.1 := by
  obtain ⟨position, token⟩ := l
  obtain rfl : token = .star := hl
  exact ⟨rfl, rfl⟩

/-- Without a `*` the expression stays as it is. -/
theorem stars_of_ends (h : Ends [.star] ls) (r : Regex) :
    (stars r ls).1 = r ∧ (stars r ls).2.1 = ls := by
  unfold stars
  split
  · next l ls => exact absurd (h _ rfl) (by simp)
  · exact ⟨rfl, rfl⟩

/-- A reader gives an expression after which as many `*` are left as the rest begins with. -/
def GivesStars (x : Except Error (Front ls)) (r : Regex) (rest : List Lexeme) : Prop :=
  ∃ s after, Gives x s after ∧ (stars s after).1 = (stars r rest).1 ∧
    (stars s after).2.1 = (stars r rest).2.1

/-- A factor is read if no `*` follows. -/
theorem GivesStars.gives_factor (h : GivesStars (primary stop ls) r rest)
    (hends : Ends [.star] rest) : Gives (factor stop ls) r rest := by
  obtain ⟨s, after, hprimary, hregex, hrest⟩ := h
  obtain ⟨hregex', hrest'⟩ := stars_of_ends hends r
  exact gives_factor_iff.mpr ⟨s, after, hprimary, hregex.trans hregex', hrest.trans hrest'⟩

/-! ### Parentheses and single tokens -/

/-- A primary is an expression in parentheses, `ε` or another character. -/
theorem gives_primary_iff : Gives (primary stop ls) r rest ↔
    (∃ l inside close, ls = l :: inside ∧ l.token = .leftParen ∧ close.token = .rightParen ∧
      Gives (expression stop inside) r (close :: rest)) ∨
    ∃ l, ls = l :: rest ∧
      (l.token = .epsilon ∧ r = epsilon ∨ ∃ c, l.token = .literal c ∧ r = literal c) := by
  constructor
  · rintro ⟨front, hprimary, rfl, rfl⟩
    cases ls with
    | nil =>
      rw [primary] at hprimary
      cases hprimary
    | cons l ls =>
      rw [primary] at hprimary
      split at hprimary
      · next hopen =>
        split at hprimary
        · cases hprimary
        · next inner hinner =>
          split at hprimary
          · next rest hlt hskip =>
            cases hprimary
            obtain ⟨close, hrest, hclose⟩ := eq_cons_of_skip? hskip
            exact .inl ⟨l, ls, close, rfl, hopen, hclose, inner, hinner, rfl, hrest⟩
          · split at hprimary
            · cases hprimary
            · cases hprimary
      · next hepsilon =>
        cases hprimary
        exact .inr ⟨l, rfl, .inl ⟨hepsilon, rfl⟩⟩
      · next c hliteral =>
        cases hprimary
        exact .inr ⟨l, rfl, .inr ⟨c, hliteral, rfl⟩⟩
      · cases hprimary
  · rintro (⟨l, inside, close, rfl, hopen, hclose, ⟨regex, _, hlt⟩, hinner, rfl, rfl⟩ |
      ⟨l, rfl, ⟨hepsilon, rfl⟩ | ⟨c, hliteral, rfl⟩⟩)
    · refine ⟨⟨regex, rest, ?_⟩, ?_, rfl, rfl⟩
      · exact Nat.lt_succ_of_lt (Nat.lt_trans (Nat.lt_succ_self _) hlt)
      · simp only [primary, hopen, hinner, skip?_cons hclose]
    · refine ⟨⟨epsilon, rest, Nat.lt_succ_self _⟩, ?_, rfl, rfl⟩
      simp only [primary, hepsilon]
    · refine ⟨⟨literal c, rest, Nat.lt_succ_self _⟩, ?_, rfl, rfl⟩
      simp only [primary, hliteral]

/-! ### What is read is derived -/

/-- The repeated expression is a factor. -/
theorem exists_isFactor_stars (h : IsFactor ts r) (ls : List Lexeme) :
    ∃ used, ls = used ++ (stars r ls).2.1 ∧
      IsFactor (ts ++ used.map Lexeme.token) (stars r ls).1 := by
  induction ls generalizing ts r with
  | nil =>
    refine ⟨[], rfl, ?_⟩
    rw [List.map_nil, List.append_nil]
    exact h
  | cons l ls ih =>
    by_cases hl : l.token = .star
    · obtain ⟨hregex, hrest⟩ := stars_cons hl r ls
      obtain ⟨used, hused, hfactor⟩ := ih h.star
      refine ⟨l :: used, ?_, ?_⟩
      · rw [hrest, List.cons_append, ← hused]
      · rw [hregex, List.map_cons, hl]
        simpa using hfactor
    · obtain ⟨hregex, hrest⟩ := stars_of_ends (ends_cons (by simpa using hl) ls) r
      exact ⟨[], hrest.symm, by rw [hregex]; simpa using h⟩

mutual

/-- The tokens of an expression that is read are this expression. -/
theorem isExpression_of_gives {ls rest : List Lexeme} {r : Regex}
    (h : Gives (expression stop ls) r rest) :
    ∃ used, ls = used ++ rest ∧ IsExpression (used.map Lexeme.token) r := by
  rw [expression_eq_chain, gives_chain_iff] at h
  rcases h with ⟨h, _⟩ | ⟨left, l, more, right, hleft, hl, hright, rfl⟩
  · obtain ⟨used, hused, hterm⟩ := isTerm_of_gives h
    exact ⟨used, hused, .term hterm⟩
  · have hlt := hleft.length_lt
    obtain ⟨used, rfl, hterm⟩ := isTerm_of_gives hleft
    obtain ⟨used', rfl, hexpression⟩ := isExpression_of_gives hright
    refine ⟨used ++ l :: used', by simp, ?_⟩
    rw [List.map_append, List.map_cons, hl]
    exact .plus hterm hexpression
termination_by (ls.length, 3)

/-- The tokens of a term that is read are this term. -/
theorem isTerm_of_gives {ls rest : List Lexeme} {r : Regex}
    (h : Gives (term stop ls) r rest) :
    ∃ used, ls = used ++ rest ∧ IsTerm (used.map Lexeme.token) r := by
  rw [term_eq_chain, gives_chain_iff] at h
  rcases h with ⟨h, _⟩ | ⟨left, l, more, right, hleft, hl, hright, rfl⟩
  · obtain ⟨used, hused, hfactor⟩ := isFactor_of_gives h
    exact ⟨used, hused, .factor hfactor⟩
  · have hlt := hleft.length_lt
    obtain ⟨used, rfl, hfactor⟩ := isFactor_of_gives hleft
    obtain ⟨used', rfl, hterm⟩ := isTerm_of_gives hright
    refine ⟨used ++ l :: used', by simp, ?_⟩
    rw [List.map_append, List.map_cons, hl]
    exact .dot hfactor hterm
termination_by (ls.length, 2)

/-- The tokens of a factor that is read are this factor. -/
theorem isFactor_of_gives {ls rest : List Lexeme} {r : Regex}
    (h : Gives (factor stop ls) r rest) :
    ∃ used, ls = used ++ rest ∧ IsFactor (used.map Lexeme.token) r := by
  obtain ⟨s, after, hprimary, rfl, rfl⟩ := gives_factor_iff.mp h
  obtain ⟨used, rfl, hs⟩ := isPrimary_of_gives hprimary
  obtain ⟨used', hused, hfactor⟩ := exists_isFactor_stars (.primary hs) after
  refine ⟨used ++ used', ?_, ?_⟩
  · rw [List.append_assoc, ← hused]
  · rw [List.map_append]
    exact hfactor
termination_by (ls.length, 1)

/-- The tokens of a primary that is read are this primary. -/
theorem isPrimary_of_gives {ls rest : List Lexeme} {r : Regex}
    (h : Gives (primary stop ls) r rest) :
    ∃ used, ls = used ++ rest ∧ IsPrimary (used.map Lexeme.token) r := by
  rcases gives_primary_iff.mp h with ⟨l, inside, close, rfl, hopen, hclose, hinside⟩ |
    ⟨l, rfl, ⟨hepsilon, rfl⟩ | ⟨c, hliteral, rfl⟩⟩
  · obtain ⟨used, rfl, hexpression⟩ := isExpression_of_gives hinside
    refine ⟨l :: used ++ [close], by simp, ?_⟩
    rw [List.map_append, List.map_cons, List.map_singleton, hopen, hclose]
    exact .parens hexpression
  · refine ⟨[l], rfl, ?_⟩
    rw [List.map_singleton, hepsilon]
    exact .epsilon
  · refine ⟨[l], rfl, ?_⟩
    rw [List.map_singleton, hliteral]
    exact .literal c
termination_by (ls.length, 0)

end

/-! ### What is derived is read -/

mutual

/-- An expression is read if no operator follows. -/
theorem gives_of_isExpression {ts : List Token} {r : Regex} {used rest : List Lexeme} :
    IsExpression ts r → used.map Lexeme.token = ts → Ends [.star, .dot, .plus] rest →
      Gives (expression stop (used ++ rest)) r rest
  | .term h, hused, hends => by
    rw [expression_eq_chain, gives_chain_iff]
    exact .inl ⟨gives_of_isTerm h hused (hends.mono (by simp)), hends.mono (by simp)⟩
  | .plus h h', hused, hends => by
    obtain ⟨left, _, rfl, hleft, hplus⟩ := List.map_eq_append_iff.mp hused
    obtain ⟨l, right, rfl, hl, hright⟩ := List.map_eq_cons_iff.mp hplus
    rw [expression_eq_chain, gives_chain_iff, List.append_assoc, List.cons_append]
    have hnext : Ends [.star, .dot] (l :: (right ++ rest)) := ends_cons (by simp [hl]) _
    exact .inr ⟨_, l, right ++ rest, _, gives_of_isTerm h hleft hnext, hl,
      gives_of_isExpression h' hright hends, rfl⟩

/-- A term is read if neither `*` nor `.` follows. -/
theorem gives_of_isTerm {ts : List Token} {r : Regex} {used rest : List Lexeme} :
    IsTerm ts r → used.map Lexeme.token = ts → Ends [.star, .dot] rest →
      Gives (term stop (used ++ rest)) r rest
  | .factor h, hused, hends => by
    have hfactor : Gives (factor stop (used ++ rest)) r rest :=
      (givesStars_of_isFactor h hused).gives_factor (hends.mono (by simp))
    rw [term_eq_chain, gives_chain_iff]
    exact .inl ⟨hfactor, hends.mono (by simp)⟩
  | .dot h h', hused, hends => by
    obtain ⟨left, _, rfl, hleft, hdot⟩ := List.map_eq_append_iff.mp hused
    obtain ⟨l, right, rfl, hl, hright⟩ := List.map_eq_cons_iff.mp hdot
    rw [term_eq_chain, gives_chain_iff, List.append_assoc, List.cons_append]
    have hnext : Ends [.star] (l :: (right ++ rest)) := ends_cons (by simp [hl]) _
    exact .inr ⟨_, l, right ++ rest, _, (givesStars_of_isFactor h hleft).gives_factor hnext, hl,
      gives_of_isTerm h' hright hends, rfl⟩

/-- A factor is a primary and the `*` after it, whatever follows. -/
theorem givesStars_of_isFactor {ts : List Token} {r : Regex} {used rest : List Lexeme} :
    IsFactor ts r → used.map Lexeme.token = ts → GivesStars (primary stop (used ++ rest)) r rest
  | .primary h, hused => ⟨r, rest, gives_of_isPrimary h hused, rfl, rfl⟩
  | .star h, hused => by
    obtain ⟨inner, _, rfl, hinner, hstar⟩ := List.map_eq_append_iff.mp hused
    obtain ⟨l, rfl, hl⟩ := List.map_eq_singleton_iff.mp hstar
    rw [List.append_assoc, List.singleton_append]
    obtain ⟨s, after, hprimary, hregex, hrest⟩ := givesStars_of_isFactor h hinner
    obtain ⟨hregex', hrest'⟩ := stars_cons hl _ rest
    exact ⟨s, after, hprimary, hregex.trans hregex', hrest.trans hrest'⟩

/-- A primary is read, whatever follows. -/
theorem gives_of_isPrimary {ts : List Token} {r : Regex} {used rest : List Lexeme} :
    IsPrimary ts r → used.map Lexeme.token = ts → Gives (primary stop (used ++ rest)) r rest
  | .parens h, hused => by
    obtain ⟨_, _, rfl, hopened, hclosed⟩ := List.map_eq_append_iff.mp hused
    obtain ⟨l, inside, rfl, hopen, hinside⟩ := List.map_eq_cons_iff.mp hopened
    obtain ⟨close, rfl, hclose⟩ := List.map_eq_singleton_iff.mp hclosed
    rw [List.append_assoc, List.singleton_append, List.cons_append]
    have hnext : Ends [.star, .dot, .plus] (close :: rest) := ends_cons (by simp [hclose]) _
    exact gives_primary_iff.mpr (.inl ⟨l, _, close, rfl, hopen, hclose,
      gives_of_isExpression h hinside hnext⟩)
  | .epsilon, hused => by
    obtain ⟨l, rfl, hl⟩ := List.map_eq_singleton_iff.mp hused
    exact gives_primary_iff.mpr (.inr ⟨l, rfl, .inl ⟨hl, rfl⟩⟩)
  | .literal c, hused => by
    obtain ⟨l, rfl, hl⟩ := List.map_eq_singleton_iff.mp hused
    exact gives_primary_iff.mpr (.inr ⟨l, rfl, .inr ⟨c, hl, rfl⟩⟩)

end

/-! ### Whole texts -/

/-- A text is read as an expression exactly when its tokens are this expression. -/
theorem parse_eq_ok_iff : parse cs = .ok r ↔ IsExpression (tokens cs) r := by
  have hgives : parse cs = .ok r ↔ Gives (expression cs.length (lexemes 0 cs)) r [] := by
    unfold parse
    constructor
    · intro h
      split at h
      · cases h
      · next front hfront =>
        split at h
        · next hempty =>
          cases h
          exact ⟨front, hfront, rfl, List.isEmpty_iff.mp hempty⟩
        · cases h
    · rintro ⟨front, hfront, rfl, hrest⟩
      simp only [hfront, hrest, List.isEmpty_nil, if_true]
  rw [hgives, ← map_token_lexemes 0 cs]
  constructor
  · intro h
    obtain ⟨used, hused, hexpression⟩ := isExpression_of_gives h
    rwa [hused, List.append_nil]
  · intro h
    have hnone : Ends [.star, .dot, .plus] [] := by simp [Ends]
    have hgives : Gives (expression cs.length (lexemes 0 cs ++ [])) r [] :=
      gives_of_isExpression h rfl hnone
    rwa [List.append_nil] at hgives

end LanguageTheory.Regex
