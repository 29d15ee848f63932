import LanguageTheory.Proofs.Regex.Reading
import Mathlib.Data.List.Induction

/-!
# Progress through an expression

Read from left to right, tokens matter for those that follow by two facts only: which parentheses
are open after them, and whether an operand is complete. These facts tell which token can be next.
The tokens of an expression close what they open and leave an operand complete, and a reader takes
every token that can continue what it reads.
-/

namespace LanguageTheory.Regex

variable {ls ms used : List Lexeme} {l : Lexeme} {ts us : List Token} {t : Token} {r : Regex}
  {opened : List Nat}

/-- Tokens that can be extended to an expression. -/
def Viable (ts : List Token) : Prop := ∃ more r, IsExpression (ts ++ more) r

/-- Tokens that end with an operand: none is missing between them and an operator. -/
def EndsOperand (ts : List Token) : Prop := ∃ t ∈ ts.getLast?, t ∉ [.leftParen, .plus, .dot]

/-- The positions of the parentheses that are open after one more token. -/
def Lexeme.enclose (opened : List Nat) (l : Lexeme) : List Nat :=
  match l.token with
  | .leftParen => l.position :: opened
  | .rightParen => opened.tail
  | _ => opened

/-- The positions of the parentheses of a text that are not closed, the innermost one first. -/
def unclosed (cs : List Char) : List Nat := (lexemes 0 cs).foldl Lexeme.enclose []

/-- How far the reading of an expression has come. -/
structure Progress where
  /-- Positions of the parentheses that are open, the innermost one first. -/
  opened : List Nat
  /-- Whether an operand is complete, so that no other one can follow. -/
  complete : Bool

namespace Progress

variable {p q : Progress}

/-- Nothing has been read. -/
def start : Progress := ⟨[], false⟩

/-- The progress after a token, if the token can stand there. -/
def next? : Progress → Lexeme → Option Progress
  | ⟨opened, false⟩, ⟨position, .leftParen⟩ => some ⟨position :: opened, false⟩
  | ⟨opened, false⟩, ⟨_, .epsilon⟩ => some ⟨opened, true⟩
  | ⟨opened, false⟩, ⟨_, .literal _⟩ => some ⟨opened, true⟩
  | ⟨opened, true⟩, ⟨_, .star⟩ => some ⟨opened, true⟩
  | ⟨opened, true⟩, ⟨_, .plus⟩ => some ⟨opened, false⟩
  | ⟨opened, true⟩, ⟨_, .dot⟩ => some ⟨opened, false⟩
  | ⟨_ :: opened, true⟩, ⟨_, .rightParen⟩ => some ⟨opened, true⟩
  | _, _ => none

/-- The progress after some tokens, if they can stand there. -/
def after? (p : Progress) (ls : List Lexeme) : Option Progress := ls.foldlM next? p

/-! ### Steps -/

/-- One token, and then the others. -/
theorem after?_cons (p : Progress) (l : Lexeme) (ls : List Lexeme) :
    p.after? (l :: ls) = (p.next? l).bind fun q ↦ q.after? ls := List.foldlM_cons

/-- Some tokens, and then others. -/
theorem after?_append (p : Progress) (ls ms : List Lexeme) :
    p.after? (ls ++ ms) = (p.after? ls).bind fun q ↦ q.after? ms := List.foldlM_append

/-- An operand begins with a parenthesis, with `ε` or with a character. -/
theorem next?_of_not_complete (h : p.complete = false)
    (hl : l.token ∈ [.rightParen, .plus, .dot, .star]) : p.next? l = none := by
  obtain ⟨opened, complete⟩ := p
  obtain ⟨position, token⟩ := l
  simp only [List.mem_cons, List.not_mem_nil, or_false] at hl
  obtain rfl : complete = false := h
  obtain rfl | rfl | rfl | rfl := hl <;> rfl

/-- What follows an operand is an operator, or closes a parenthesis. -/
theorem next?_of_complete (h : p.complete = true) (hl : l.token ∉ [.plus, .dot, .star])
    (hclose : l.token = .rightParen → p.opened = []) : p.next? l = none := by
  obtain ⟨opened, complete⟩ := p
  obtain ⟨position, token⟩ := l
  obtain rfl : complete = true := h
  cases token with
  | rightParen =>
    obtain rfl : opened = [] := hclose rfl
    rfl
  | plus => exact absurd (by simp) hl
  | dot => exact absurd (by simp) hl
  | star => exact absurd (by simp) hl
  | _ => rfl

/-- After `+` and `.`, another operand has to begin. -/
theorem next?_of_join (hjoin : t = .plus ∨ t = .dot) (hl : l.token = t) :
    next? ⟨opened, true⟩ l = some ⟨opened, false⟩ := by
  obtain ⟨position, token⟩ := l
  obtain rfl : token = t := hl
  rcases hjoin with rfl | rfl <;> rfl

/-- A parenthesis that cannot be closed after an operand is not open. -/
theorem opened_eq_nil_of_next?_eq_none (h : p.complete = true) (hl : l.token = .rightParen)
    (hnext : p.next? l = none) : p.opened = [] := by
  obtain ⟨opened, complete⟩ := p
  obtain ⟨position, token⟩ := l
  obtain rfl : complete = true := h
  obtain rfl : token = .rightParen := hl
  cases opened with
  | nil => rfl
  | cons first opened => cases hnext

/-- Which parentheses are open depends on the parentheses alone. -/
theorem opened_of_next? (h : p.next? l = some q) : q.opened = l.enclose p.opened := by
  unfold next? at h
  split at h <;> cases h <;> rfl

/-- An operand is complete after the token that ends it. -/
theorem complete_of_next? (h : p.next? l = some q) :
    q.complete = true ↔ l.token ∉ [.leftParen, .plus, .dot] := by
  unfold next? at h
  split at h <;> cases h <;> simp

/-- The open parentheses after some tokens. -/
theorem opened_of_after? (h : p.after? ls = some q) :
    q.opened = ls.foldl Lexeme.enclose p.opened := by
  induction ls generalizing p with
  | nil =>
    cases h
    rfl
  | cons l ls ih =>
    rw [after?_cons, Option.bind_eq_some_iff] at h
    obtain ⟨p', hnext, hafter⟩ := h
    rw [ih hafter, opened_of_next? hnext]
    rfl

/-- An operand is complete when the tokens end with one. -/
theorem complete_of_after? (h : start.after? ls = some q) :
    q.complete = true ↔ EndsOperand (ls.map Lexeme.token) := by
  cases ls using List.reverseRecOn with
  | nil =>
    cases h
    simp [start, EndsOperand]
  | append_singleton ls l =>
    rw [after?_append, Option.bind_eq_some_iff] at h
    obtain ⟨p, -, hlast⟩ := h
    rw [after?_cons, Option.bind_eq_some_iff] at hlast
    obtain ⟨q', hnext, hq⟩ := hlast
    cases hq
    rw [complete_of_next? hnext]
    simp [EndsOperand]

end Progress

open Progress

/-! ### Expressions -/

/-- Two operands that `+` or `.` joins are an operand again. -/
theorem after?_of_join (hjoin : t = .plus ∨ t = .dot)
    (hls : ls.map Lexeme.token = ts ++ t :: us)
    (hleft : ∀ left, left.map Lexeme.token = ts →
      after? ⟨opened, false⟩ left = some ⟨opened, true⟩)
    (hright : ∀ right, right.map Lexeme.token = us →
      after? ⟨opened, false⟩ right = some ⟨opened, true⟩) :
    after? ⟨opened, false⟩ ls = some ⟨opened, true⟩ := by
  obtain ⟨left, _, rfl, hts, hrest⟩ := List.map_eq_append_iff.mp hls
  obtain ⟨l, right, rfl, hl, hus⟩ := List.map_eq_cons_iff.mp hrest
  rw [after?_append, hleft left hts, Option.bind_some, after?_cons, next?_of_join hjoin hl,
    Option.bind_some]
  exact hright right hus

mutual

/-- An expression is an operand, and what it opens it closes. -/
theorem after?_of_isExpression {ts : List Token} {r : Regex} {ls : List Lexeme}
    {opened : List Nat} : IsExpression ts r → ls.map Lexeme.token = ts →
      after? ⟨opened, false⟩ ls = some ⟨opened, true⟩
  | .term h, hls => after?_of_isTerm h hls
  | .plus h h', hls => after?_of_join (.inl rfl) hls
    (fun _ hleft ↦ after?_of_isTerm h hleft) fun _ hright ↦ after?_of_isExpression h' hright

/-- A term is an operand, and what it opens it closes. -/
theorem after?_of_isTerm {ts : List Token} {r : Regex} {ls : List Lexeme}
    {opened : List Nat} : IsTerm ts r → ls.map Lexeme.token = ts →
      after? ⟨opened, false⟩ ls = some ⟨opened, true⟩
  | .factor h, hls => after?_of_isFactor h hls
  | .dot h h', hls => after?_of_join (.inr rfl) hls
    (fun _ hleft ↦ after?_of_isFactor h hleft) fun _ hright ↦ after?_of_isTerm h' hright

/-- A factor is an operand, and what it opens it closes. -/
theorem after?_of_isFactor {ts : List Token} {r : Regex} {ls : List Lexeme}
    {opened : List Nat} : IsFactor ts r → ls.map Lexeme.token = ts →
      after? ⟨opened, false⟩ ls = some ⟨opened, true⟩
  | .primary h, hls => after?_of_isPrimary h hls
  | .star h, hls => by
    obtain ⟨inner, _, rfl, hinner, hstar⟩ := List.map_eq_append_iff.mp hls
    obtain ⟨⟨position, _⟩, rfl, rfl⟩ := List.map_eq_singleton_iff.mp hstar
    rw [after?_append, after?_of_isFactor h hinner]
    rfl

/-- A primary is an operand, and what it opens it closes. -/
theorem after?_of_isPrimary {ts : List Token} {r : Regex} {ls : List Lexeme}
    {opened : List Nat} : IsPrimary ts r → ls.map Lexeme.token = ts →
      after? ⟨opened, false⟩ ls = some ⟨opened, true⟩
  | .parens h, hls => by
    obtain ⟨_, _, rfl, hopened, hclosed⟩ := List.map_eq_append_iff.mp hls
    obtain ⟨⟨position, _⟩, inside, rfl, rfl, hinside⟩ := List.map_eq_cons_iff.mp hopened
    obtain ⟨⟨position', _⟩, rfl, rfl⟩ := List.map_eq_singleton_iff.mp hclosed
    have hinner : after? ⟨position :: opened, false⟩ inside = some ⟨position :: opened, true⟩ :=
      after?_of_isExpression h hinside
    rw [List.cons_append, after?_cons]
    exact (after?_append _ inside _).trans (hinner ▸ rfl)
  | .epsilon, hls => by
    obtain ⟨⟨position, _⟩, rfl, rfl⟩ := List.map_eq_singleton_iff.mp hls
    rfl
  | .literal c, hls => by
    obtain ⟨⟨position, _⟩, rfl, rfl⟩ := List.map_eq_singleton_iff.mp hls
    rfl

end

/-! ### What can follow an operand that was read -/

/-- All `*` are taken. -/
theorem ends_stars (r : Regex) (ls : List Lexeme) : Ends [.star] (stars r ls).2.1 := by
  induction ls generalizing r with
  | nil => simp [stars, Ends]
  | cons l ls ih =>
    by_cases hl : l.token = .star
    · rw [(stars_cons hl r ls).2]
      exact ih (star r)
    · have hends : Ends [.star] (l :: ls) := ends_cons (by simpa using hl) ls
      rw [(stars_of_ends hends r).2]
      exact hends

variable {stop : Nat} {rest : List Lexeme}

/-- A factor takes all `*` after it. -/
theorem ends_of_gives_factor (h : Gives (factor stop ls) r rest) : Ends [.star] rest := by
  obtain ⟨s, after, -, -, rfl⟩ := gives_factor_iff.mp h
  exact ends_stars s after

/-- One more token is excluded. -/
theorem Ends.cons (h : Ends [t] ls) (h' : Ends ts ls) : Ends (t :: ts) ls := by
  intro l hl hmem
  rcases List.mem_cons.mp hmem with ht | hts
  · exact h l hl (List.mem_singleton.mpr ht)
  · exact h' l hl hts

/-- A chain of operands takes the tokens that join them, and all that an operand takes. -/
theorem ends_of_gives_chain {first : Except Error (Front ls)} {join : Regex → Regex → Regex}
    {second : (rest : List Lexeme) → Except Error (Front rest)}
    (hfirst : Gives first r rest → Ends ts rest)
    (hsecond : ∀ more right, more.length < ls.length → Gives (second more) right rest →
      Ends (t :: ts) rest)
    (h : Gives (chain first t join second) r rest) : Ends (t :: ts) rest := by
  rcases gives_chain_iff.mp h with ⟨hleft, hends⟩ | ⟨_, l, more, right, hleft, -, hright, -⟩
  · exact hends.cons (hfirst hleft)
  · exact hsecond more right (Nat.lt_of_succ_lt hleft.length_lt) hright

/-- A term takes all `*` and `.` that can continue it. -/
theorem ends_of_gives_term {ls : List Lexeme} {r : Regex} (h : Gives (term stop ls) r rest) :
    Ends [.dot, .star] rest :=
  ends_of_gives_chain ends_of_gives_factor (fun _ _ _ hright ↦ ends_of_gives_term hright)
    (term_eq_chain stop ls ▸ h)
termination_by ls.length

/-- An expression takes all operators that can continue it. -/
theorem ends_of_gives_expression {ls : List Lexeme} {r : Regex}
    (h : Gives (expression stop ls) r rest) : Ends [.plus, .dot, .star] rest :=
  ends_of_gives_chain ends_of_gives_term (fun _ _ _ hright ↦ ends_of_gives_expression hright)
    (expression_eq_chain stop ls ▸ h)
termination_by ls.length

end LanguageTheory.Regex
