import LanguageTheory.Proofs.Regex.Reading
import Mathlib.Data.List.Basic

/-!
# Printed expressions

The text of an expression is read as the same expression when its literals have no meaning of their
own. Parentheses stand only where they are needed: every text that is read as the expression has the
printed text as a part, so that it has all the parentheses of the printed text.
-/

namespace LanguageTheory.Regex

variable {r : Regex} {ts : List Token} {cs text : List Char} {c d : Char} {k m : Nat}

/-! ### Tokens of a text -/

/-- A literal that is no blank and has no meaning of its own in an expression. -/
def IsPlain (c : Char) : Prop := isBlank c = false ∧ c ∉ [epsilonChar, '(', ')', '+', '.', '*']

/-- The character of the token of a character. -/
theorem Token.toChar_ofChar (c : Char) : (Token.ofChar c).toChar = c := by
  grind [Token.ofChar, Token.toChar]

/-- A character is a literal when it has no meaning of its own. -/
theorem Token.ofChar_eq_literal_iff :
    Token.ofChar d = .literal c ↔ d = c ∧ c ∉ [epsilonChar, '(', ')', '+', '.', '*'] := by
  grind [Token.ofChar]

/-- The character `)` closes a parenthesis, and no other one does. -/
theorem Token.ofChar_eq_rightParen_iff : Token.ofChar c = .rightParen ↔ c = ')' := by
  constructor
  · exact fun h ↦ (Token.toChar_ofChar c).symm.trans (congrArg Token.toChar h)
  · rintro rfl
    rfl

/-- The tokens of two texts, one after the other. -/
theorem tokens_append (cs ds : List Char) : tokens (cs ++ ds) = tokens cs ++ tokens ds := by
  simp [tokens]

/-- A character that is no blank is a token. -/
theorem tokens_cons (h : isBlank c = false) (cs : List Char) :
    tokens (c :: cs) = .ofChar c :: tokens cs := by
  simp [tokens, h]

/-- The characters of the tokens of a text are those of the text that are no blanks. -/
theorem map_toChar_tokens (cs : List Char) :
    (tokens cs).map Token.toChar = cs.filter fun c ↦ !isBlank c := by
  simp [tokens, Function.comp_def, Token.toChar_ofChar]

/-! ### Operands -/

/-- Tokens that can be an operand where one is needed that binds as strongly as `k`. -/
def IsOperand : Nat → List Token → Regex → Prop
  | 0 => IsExpression
  | 1 => IsTerm
  | 2 => IsFactor
  | _ => IsPrimary

/-- What binds more strongly can be an operand as well. -/
theorem IsOperand.weaken (h : IsOperand m ts r) (hkm : k ≤ m) : IsOperand k ts r := by
  induction hkm with
  | refl => exact h
  | @step m hkm ih =>
    refine ih ?_
    match m, h with
    | 0, h => exact .term h
    | 1, h => exact .factor h
    | 2, h => exact .primary h
    | _ + 3, h => exact h

/-- An expression in parentheses can be any operand. -/
theorem IsOperand.parens (h : IsOperand 0 ts r) (k : Nat) :
    IsOperand k (.leftParen :: ts ++ [.rightParen]) r := by
  have hprimary : IsOperand (k + 3) (.leftParen :: ts ++ [.rightParen]) r := IsPrimary.parens h
  exact hprimary.weaken (Nat.le_add_right k 3)

/-! ### What is printed is read -/

/-- The text of an operand can be the operand. -/
theorem isOperand_operand (h : IsOperand r.strength (tokens text) r) (k : Nat) :
    IsOperand k (tokens (operand k r text)) r := by
  unfold operand
  split
  · next hk => exact h.weaken hk
  · rw [tokens_append, tokens_cons (by decide)]
    exact (h.weaken (Nat.zero_le _)).parens k

/-- The text of an expression with plain literals is this expression, and it binds as strongly. -/
theorem isOperand_text (h : ∀ c ∈ r.literals, IsPlain c) :
    IsOperand r.strength (tokens r.text) r := by
  induction r with
  | epsilon => exact IsPrimary.epsilon
  | literal c =>
    obtain ⟨hblank, hspecial⟩ := h c (by simp [literals])
    rw [text, tokens_cons hblank, Token.ofChar_eq_literal_iff.mpr ⟨rfl, hspecial⟩]
    exact IsPrimary.literal c
  | alternation r s ihr ihs =>
    have hr := isOperand_operand (ihr fun c hc ↦ h c (List.mem_append_left _ hc)) 1
    have hs := isOperand_operand (ihs fun c hc ↦ h c (List.mem_append_right _ hc)) 0
    rw [text, tokens_append, tokens_cons (by decide)]
    exact IsExpression.plus hr hs
  | concatenation r s ihr ihs =>
    have hr := isOperand_operand (ihr fun c hc ↦ h c (List.mem_append_left _ hc)) 2
    have hs := isOperand_operand (ihs fun c hc ↦ h c (List.mem_append_right _ hc)) 1
    rw [text, tokens_append, tokens_cons (by decide)]
    exact IsTerm.dot hr hs
  | star r ih =>
    have hr := isOperand_operand (ih h) 2
    rw [text, tokens_append, tokens_cons (by decide)]
    exact IsFactor.star hr

/-! ### Needed parentheses -/

/-- The text of an operand is a part of the text in parentheses. -/
theorem operand_sublist_parens (k : Nat) (r : Regex) (text : List Char) :
    (operand k r text).Sublist ('(' :: text ++ [')']) := by
  unfold operand
  split
  · exact (List.sublist_append_left text [')']).cons '('
  · exact .refl _

/-- The text of an operand has parentheses if it has them for a weaker operator. -/
theorem operand_sublist (h : k ≤ m) (r : Regex) (text : List Char) :
    (operand k r text).Sublist (operand m r text) := by
  by_cases hm : m ≤ r.strength
  · simp [operand, hm, Nat.le_trans h hm]
  · have hparens : operand m r text = '(' :: text ++ [')'] := if_neg hm
    rw [hparens]
    exact operand_sublist_parens k r text

mutual

/-- The tokens of an expression have the printed text as a part. -/
theorem IsExpression.text_sublist {ts : List Token} {r : Regex} :
    IsExpression ts r → (operand 0 r r.text).Sublist (ts.map Token.toChar)
  | .term h => (operand_sublist (Nat.zero_le 1) _ _).trans h.text_sublist
  | .plus h h' => by
    rw [List.map_append, List.map_cons]
    exact h.text_sublist.append (h'.text_sublist.cons_cons '+')

/-- The tokens of a term have the printed text as a part. -/
theorem IsTerm.text_sublist {ts : List Token} {r : Regex} :
    IsTerm ts r → (operand 1 r r.text).Sublist (ts.map Token.toChar)
  | .factor h => (operand_sublist (Nat.le_succ 1) _ _).trans h.text_sublist
  | .dot h h' => by
    rw [List.map_append, List.map_cons]
    exact h.text_sublist.append (h'.text_sublist.cons_cons '.')

/-- The tokens of a factor have the printed text as a part. -/
theorem IsFactor.text_sublist {ts : List Token} {r : Regex} :
    IsFactor ts r → (operand 2 r r.text).Sublist (ts.map Token.toChar)
  | .primary h => (operand_sublist (Nat.le_succ 2) _ _).trans h.text_sublist
  | .star h => by
    rw [List.map_append]
    exact h.text_sublist.append (.refl ['*'])

/-- The tokens of a primary have the printed text as a part. -/
theorem IsPrimary.text_sublist {ts : List Token} {r : Regex} :
    IsPrimary ts r → (operand 3 r r.text).Sublist (ts.map Token.toChar)
  | .parens h => by
    rw [List.map_append, List.map_cons]
    exact (operand_sublist_parens 3 _ _).trans ((h.text_sublist.cons_cons '(').append_right [')'])
  | .epsilon => .refl _
  | .literal c => .refl _

end

/-! ### Literals of what is read -/

mutual

/-- The literals of an expression are among its tokens. -/
theorem IsExpression.mem_tokens {ts : List Token} {r : Regex} {c : Char} :
    IsExpression ts r → c ∈ r.literals → .literal c ∈ ts
  | .term h, hc => h.mem_tokens hc
  | .plus h h', hc => by
    rcases List.mem_append.mp hc with hc | hc
    · exact List.mem_append_left _ (h.mem_tokens hc)
    · exact List.mem_append_right _ (List.mem_cons_of_mem _ (h'.mem_tokens hc))

/-- The literals of a term are among its tokens. -/
theorem IsTerm.mem_tokens {ts : List Token} {r : Regex} {c : Char} :
    IsTerm ts r → c ∈ r.literals → .literal c ∈ ts
  | .factor h, hc => h.mem_tokens hc
  | .dot h h', hc => by
    rcases List.mem_append.mp hc with hc | hc
    · exact List.mem_append_left _ (h.mem_tokens hc)
    · exact List.mem_append_right _ (List.mem_cons_of_mem _ (h'.mem_tokens hc))

/-- The literals of a factor are among its tokens. -/
theorem IsFactor.mem_tokens {ts : List Token} {r : Regex} {c : Char} :
    IsFactor ts r → c ∈ r.literals → .literal c ∈ ts
  | .primary h, hc => h.mem_tokens hc
  | .star h, hc => List.mem_append_left _ (h.mem_tokens hc)

/-- The literals of a primary are among its tokens. -/
theorem IsPrimary.mem_tokens {ts : List Token} {r : Regex} {c : Char} :
    IsPrimary ts r → c ∈ r.literals → .literal c ∈ ts
  | .parens h, hc => List.mem_append_left _ (List.mem_cons_of_mem _ (h.mem_tokens hc))
  | .epsilon, hc => absurd hc List.not_mem_nil
  | .literal _, hc => by
    rw [List.mem_singleton.mp hc]
    exact List.mem_cons_self

end

/-- The literals of an expression that was read are plain. -/
theorem isPlain_of_parse (h : parse cs = .ok r) : ∀ c ∈ r.literals, IsPlain c := by
  intro c hc
  obtain ⟨d, hd, htoken⟩ := List.mem_map.mp ((parse_eq_ok_iff.mp h).mem_tokens hc)
  obtain ⟨rfl, hspecial⟩ := Token.ofChar_eq_literal_iff.mp htoken
  exact ⟨by simpa using (List.mem_filter.mp hd).2, hspecial⟩

/-- The text of an expression is read as the same expression exactly when its literals are plain,
and it is a part of every text that is read as this expression: none of its parentheses can be left
out. -/
theorem parse_render_minimal (r : Regex) :
    (parse r.render.toList = .ok r ↔ ∀ c ∈ r.literals, IsPlain c) ∧
      ∀ cs, parse cs = .ok r → r.render.toList.Sublist cs := by
  rw [render, String.toList_ofList]
  refine ⟨⟨isPlain_of_parse, fun h ↦ ?_⟩, fun cs h ↦ ?_⟩
  · exact parse_eq_ok_iff.mpr ((isOperand_text h).weaken (Nat.zero_le _))
  · have hpart : r.text.Sublist ((tokens cs).map Token.toChar) :=
      (parse_eq_ok_iff.mp h).text_sublist
    rw [map_toChar_tokens] at hpart
    exact hpart.trans List.filter_sublist

/-- An alternative on the left of another one, and a repeated concatenation. -/
def nested : Regex :=
  alternation (alternation (literal 'a') (literal 'b')) (star (concatenation (literal 'c') epsilon))

/-- Both of its pairs of parentheses are needed, and two more of another text for it are not. -/
theorem parse_render_minimal_nested :
    nested.render = "(a+b)+(c.ε)*" ∧ parse nested.render.toList = .ok nested ∧
      nested.render.toList.Sublist "((a+b)) + ((c.ε)*)".toList := by
  have hplain : ∀ c ∈ nested.literals, IsPlain c := by
    intro c hc
    simp only [nested, literals, List.mem_append, List.mem_singleton, List.not_mem_nil,
      or_false] at hc
    rcases hc with (rfl | rfl) | rfl
    · exact ⟨by decide, by decide⟩
    · exact ⟨by decide, by decide⟩
    · exact ⟨by decide, by decide⟩
  have hother : parse "((a+b)) + ((c.ε)*)".toList = .ok nested := by cbv
  obtain ⟨hread, hpart⟩ := parse_render_minimal nested
  exact ⟨by decide, hread.mpr hplain, hpart _ hother⟩

end LanguageTheory.Regex
