import LanguageTheory.Grammar.RuleText
import LanguageTheory.Proofs.Checks
import LanguageTheory.Proofs.Text.Lines

/-!
# Reading printed rules

The line of a nonterminal is read back as its name and its bodies when names and terminals are what
rule text can express: no character of a body ends an alternative, the first colon ends the head,
and what is printed for a token is read as this token, whatever follows.
-/

namespace LanguageTheory.Grammar

variable {g : Grammar} {name head : String} {c : Char} {t : Token} {body : Body}
  {bodies : List Body}

/-! ### Characters -/

/-- Characters with a meaning of their own are blanks, angle brackets and bars. -/
theorem isReserved_eq_false_iff :
    isReserved c = false ↔ isBlank c = false ∧ c ≠ '<' ∧ c ≠ '>' ∧ c ≠ '|' := by
  simp [isReserved, and_assoc]

/-- The characters of names. -/
theorem isNameChar_iff :
    isNameChar c = true ↔ isReserved c = false ∧ c ≠ ':' ∧ c ≠ epsilonChar := by
  simp [isNameChar, and_assoc]

/-- A valid name has characters, and all of them are characters of names. -/
theorem isValidName_iff : isValidName name = true ↔
    name.toList ≠ [] ∧ ∀ c ∈ name.toList, isNameChar c = true := by
  simp [isValidName]

/-- A character as a text is the text with this character only. -/
theorem eq_toString_iff : name = c.toString ↔ name.toList = [c] := by
  rw [← String.toList_inj, Char.toString_eq_singleton, String.toList_singleton]

/-! ### Names -/

/-- A name of one character stands for itself, any other one stands between brackets. -/
theorem toList_renderName (name : String) : (renderName name).toList =
    if name.toList.length = 1 then name.toList else '<' :: name.toList ++ ['>'] := by
  unfold renderName
  split
  · rfl
  · simp

/-- A printed name has no blank, no colon and no bar. -/
theorem mem_renderName (h : isValidName name = true) (hc : c ∈ (renderName name).toList) :
    isBlank c = false ∧ c ≠ ':' ∧ c ≠ '|' := by
  have hname : c ∈ name.toList → isBlank c = false ∧ c ≠ ':' ∧ c ≠ '|' := by
    intro hc
    obtain ⟨hreserved, hcolon, _⟩ := isNameChar_iff.mp ((isValidName_iff.mp h).2 c hc)
    obtain ⟨hblank, _, _, hbar⟩ := isReserved_eq_false_iff.mp hreserved
    exact ⟨hblank, hcolon, hbar⟩
  rw [toList_renderName] at hc
  split at hc
  · exact hname hc
  · simp only [List.cons_append, List.mem_cons, List.mem_append, List.not_mem_nil, or_false] at hc
    rcases hc with rfl | hc | rfl
    · decide
    · exact hname hc
    · decide

/-- A printed name is read without its brackets. -/
theorem stripBrackets_renderName (h : isValidName name = true) :
    stripBrackets (renderName name).toList = name.toList := by
  rw [toList_renderName]
  split
  · next hlength =>
    obtain ⟨c, hc⟩ := List.length_eq_one_iff.mp hlength
    have hne : c ≠ '<' := by
      have hmem : isNameChar c = true := (isValidName_iff.mp h).2 c (by simp [hc])
      exact (isReserved_eq_false_iff.mp (isNameChar_iff.mp hmem).1).2.1
    rw [hc, stripBrackets]
    simpa using hne
  · simp [stripBrackets]

/-! ### Tokens and bodies -/

/-- What a well-named grammar prints for a token has no blank and no bar. -/
theorem WellNamed.mem_renderToken (h : g.WellNamed) (ht : Declared g.terminals g.productions t)
    (hc : c ∈ t.render.toList) : isBlank c = false ∧ c ≠ '|' := by
  cases t with
  | terminal d =>
    have hcd : c = d := by simpa [Token.render] using hc
    subst hcd
    obtain ⟨hblank, _, _, hbar⟩ := isReserved_eq_false_iff.mp (h.terminal c ht).1
    exact ⟨hblank, hbar⟩
  | nonterminal name =>
    obtain ⟨hblank, _, hbar⟩ := mem_renderName (h.valid name ht) hc
    exact ⟨hblank, hbar⟩

/-- What is printed for a body has no blank and no bar. -/
theorem WellNamed.mem_renderBody (h : g.WellNamed)
    (ht : ∀ t ∈ body, Declared g.terminals g.productions t)
    (hc : c ∈ (renderBody body).toList) : isBlank c = false ∧ c ≠ '|' := by
  unfold renderBody at hc
  split at hc
  · have hce : c = epsilonChar := by simpa using hc
    subst hce
    decide
  · rw [String.toList_join, List.mem_flatMap] at hc
    obtain ⟨text, htext, hc⟩ := hc
    obtain ⟨t, hmem, rfl⟩ := List.mem_map.mp htext
    exact h.mem_renderToken (ht t hmem) hc

/-- Something is printed for a token. -/
theorem Token.toList_render_ne_nil (t : Token) : t.render.toList ≠ [] := by
  cases t with
  | terminal c => simp [render]
  | nonterminal name =>
    rw [render, toList_renderName]
    split
    · next hlength => exact List.ne_nil_of_length_eq_add_one hlength
    · simp

/-- Something is printed for a body, also if it is empty. -/
theorem toList_renderBody_ne_nil (body : Body) : (renderBody body).toList ≠ [] := by
  cases body with
  | nil => simp [renderBody]
  | cons t body => simp [renderBody, t.toList_render_ne_nil]

/-! ### Reading bodies -/

section Reading

variable {p : Productions} (h : g.WellNamed)
  (hp : ∀ name, name ∈ Table.keys p ↔ name ∈ g.nonterminals)

include h hp

/-- What is printed for a token is read as the token. -/
theorem WellNamed.readBody_render_append (ht : Declared g.terminals g.productions t) (rule : String)
    (cs : List Char) : readBody g.terminals p rule (t.render.toList ++ cs) =
      (t :: ·) <$> readBody g.terminals p rule cs := by
  cases t with
  | terminal c =>
    obtain ⟨hreserved, hepsilon⟩ := h.terminal c ht
    obtain ⟨hblank, hopen, _⟩ := isReserved_eq_false_iff.mp hreserved
    have hapart : c.toString ∉ p.keys := fun hc ↦ h.apart c ht ((hp _).mp hc)
    have hmem : c ∈ g.terminals := ht
    have hchars : (Token.terminal c).render.toList ++ cs = c :: cs := by simp [Token.render]
    rw [hchars, readBody, if_neg (by simp [hblank, hepsilon]), if_neg hopen, if_neg hapart,
      if_pos hmem]
  | nonterminal name =>
    have hmem : name ∈ p.keys := (hp name).mpr ht
    obtain ⟨_, hchars⟩ := isValidName_iff.mp (h.valid name ht)
    rw [Token.render, toList_renderName]
    split
    · next hlength =>
      obtain ⟨c, hc⟩ := List.length_eq_one_iff.mp hlength
      obtain ⟨hreserved, _, hepsilon⟩ := isNameChar_iff.mp (hchars c (by simp [hc]))
      obtain ⟨hblank, hopen, _⟩ := isReserved_eq_false_iff.mp hreserved
      obtain rfl := eq_toString_iff.mpr hc
      rw [hc, List.singleton_append, readBody, if_neg (by simp [hblank, hepsilon]),
        if_neg hopen, if_pos hmem]
    · have hclose : '>' ∉ name.toList := by
        intro hc
        obtain ⟨hreserved, _⟩ := isNameChar_iff.mp (hchars _ hc)
        exact (isReserved_eq_false_iff.mp hreserved).2.2.1 rfl
      have hcut : cut? '>' (name.toList ++ '>' :: cs) = some (name.toList, cs) :=
        cut?_append_cons hclose
      rw [List.append_assoc, List.singleton_append, List.cons_append, readBody, if_neg (by decide),
        if_pos rfl]
      split
      · next hnone =>
        rw [hcut] at hnone
        cases hnone
      · next hsome =>
        rw [hcut] at hsome
        cases hsome
        rw [String.ofList_toList, if_pos hmem]

omit h hp in
/-- Blanks are read as no token. -/
theorem readBody_of_blank {terminals : Alphabet} (rule : String) {cs : List Char}
    (hcs : ∀ c ∈ cs, isBlank c = true) : readBody terminals p rule cs = .ok [] := by
  induction cs with
  | nil => rw [readBody]
  | cons c cs ih =>
    rw [readBody, if_pos (.inl (hcs c List.mem_cons_self))]
    exact ih fun d hd ↦ hcs d (List.mem_cons_of_mem _ hd)

/-- What is printed for a body is read as the body, also with blanks after it. -/
theorem WellNamed.readBody_render (ht : ∀ t ∈ body, Declared g.terminals g.productions t)
    (rule : String) {cs : List Char} (hcs : ∀ c ∈ cs, isBlank c = true) :
    readBody g.terminals p rule ((renderBody body).toList ++ cs) = .ok body := by
  have htokens : ∀ {body : Body}, (∀ t ∈ body, Declared g.terminals g.productions t) →
      readBody g.terminals p rule ((body.map Token.render).flatMap String.toList ++ cs) =
        .ok body := by
    intro body ht
    induction body with
    | nil => exact readBody_of_blank rule hcs
    | cons t body ih =>
      rw [List.map_cons, List.flatMap_cons, List.append_assoc,
        h.readBody_render_append hp (ht t List.mem_cons_self),
        ih fun u hu ↦ ht u (List.mem_cons_of_mem _ hu)]
      rfl
  unfold renderBody
  split
  · next hempty =>
    rw [List.isEmpty_iff.mp hempty, Char.toString_eq_singleton, String.toList_singleton,
      List.singleton_append, readBody, if_pos (.inr rfl)]
    exact readBody_of_blank rule hcs
  · rw [String.toList_join]
    exact htokens ht

end Reading

/-! ### Lines -/

/-- The text of a rule after its colon. -/
def bodiesText (bodies : List Body) : List Char :=
  [' ', '|'].intercalate (bodies.map fun body ↦ ' ' :: (renderBody body).toList)

/-- The line of a nonterminal. -/
def lineText (head : String) (bodies : List Body) : List Char :=
  (renderName head).toList ++ ':' :: bodiesText bodies

/-- A printed rule is its line and a line feed. -/
theorem toList_renderRule (head : String) (bodies : OrderedSet Body) :
    (renderRule head bodies).toList = lineText head bodies.toList ++ ['\n'] := by
  simp [renderRule, lineText, bodiesText, String.toList_intercalate, Function.comp_def]

/-- The only blank of a line is the space. -/
theorem WellNamed.mem_lineText (h : g.WellNamed) (hhead : head ∈ g.nonterminals)
    (ht : ∀ body ∈ bodies, ∀ t ∈ body, Declared g.terminals g.productions t)
    (hc : c ∈ lineText head bodies) : c = ' ' ∨ isBlank c = false := by
  rcases List.mem_append.mp hc with hc | hc
  · exact .inr (mem_renderName (h.valid head hhead) hc).1
  · rcases List.mem_cons.mp hc with rfl | hc
    · exact .inr (by decide)
    · rcases mem_of_mem_intercalate hc with hc | ⟨part, hpart, hc⟩
      · rcases List.mem_pair.mp hc with rfl | rfl
        · exact .inl rfl
        · exact .inr (by decide)
      · obtain ⟨body, hb, rfl⟩ := List.mem_map.mp hpart
        exact (List.mem_cons.mp hc).imp_right fun hc ↦ (h.mem_renderBody (ht body hb) hc).1

/-- A printed line is cut into its name and the text of its bodies. -/
theorem read_lineText (h : isValidName head = true) (bodies : List Body) :
    RuleLine.read (String.ofList (lineText head bodies)) =
      .ok ⟨String.ofList (lineText head bodies), head, bodiesText bodies⟩ := by
  have hcolon : ':' ∉ (renderName head).toList := fun hc ↦ (mem_renderName h hc).2.1 rfl
  have htrim : trim (renderName head).toList = (renderName head).toList :=
    trim_of_forall fun c hc ↦ (mem_renderName h hc).1
  have hne : head.toList.isEmpty = false := by
    simpa using (isValidName_iff.mp h).1
  rw [RuleLine.read, String.toList_ofList]
  conv => lhs; rw [lineText]
  rw [cut?_append_cons hcolon]
  dsimp only
  rw [htrim, stripBrackets_renderName h, hne, String.ofList_toList]
  rfl

/-- The alternatives of a printed line are the bodies, with blanks around them. -/
theorem WellNamed.forall₂_pieces (h : g.WellNamed) (hne : bodies ≠ [])
    (ht : ∀ body ∈ bodies, ∀ t ∈ body, Declared g.terminals g.productions t) :
    List.Forall₂ (fun piece body ↦ (∀ t ∈ body, Declared g.terminals g.productions t) ∧
        ∃ cs, (∀ c ∈ cs, isBlank c = true) ∧ piece = ' ' :: (renderBody body).toList ++ cs)
      (pieces '|' (bodiesText bodies)) bodies := by
  have hbar : ∀ body ∈ bodies, '|' ∉ ' ' :: (renderBody body).toList := by
    intro body hb hc
    rcases List.mem_cons.mp hc with hc | hc
    · exact absurd hc (by decide)
    · exact (h.mem_renderBody (ht body hb) hc).2 rfl
  induction bodies with
  | nil => exact absurd rfl hne
  | cons body bodies ih =>
    have hbody := ht body List.mem_cons_self
    have hbar' := hbar body List.mem_cons_self
    cases bodies with
    | nil =>
      have htext : bodiesText [body] = ' ' :: (renderBody body).toList := by simp [bodiesText]
      rw [htext, pieces_of_notMem hbar']
      exact .cons ⟨hbody, [], by simp, by simp⟩ .nil
    | cons next bodies =>
      have htext : bodiesText (body :: next :: bodies) =
          (' ' :: (renderBody body).toList ++ [' ']) ++ '|' :: bodiesText (next :: bodies) := by
        simp [bodiesText, List.intercalate_cons_cons]
      have hbar'' : '|' ∉ ' ' :: (renderBody body).toList ++ [' '] := by
        rw [List.mem_append, not_or]
        exact ⟨hbar', by decide⟩
      rw [htext, pieces_append_cons hbar'']
      have hspace : ∀ c ∈ [' '], isBlank c = true := List.forall_mem_singleton.mpr (by decide)
      refine .cons ⟨hbody, [' '], hspace, rfl⟩ (ih (by simp) ?_ ?_)
      · exact fun b hb ↦ ht b (List.mem_cons_of_mem _ hb)
      · exact fun b hb ↦ hbar b (List.mem_cons_of_mem _ hb)

/-- The bodies of a printed line are read back. -/
theorem WellNamed.readBodies_bodiesText {p : Productions} (h : g.WellNamed)
    (hp : ∀ name, name ∈ Table.keys p ↔ name ∈ g.nonterminals)
    (ht : ∀ body ∈ bodies, ∀ t ∈ body, Declared g.terminals g.productions t) (text : String) :
    RuleLine.readBodies g.terminals p ⟨text, head, bodiesText bodies⟩ = .ok bodies := by
  have hne : ∀ {body : Body} {cs : List Char}, (∀ t ∈ body, Declared g.terminals g.productions t) →
      (renderBody body).toList ⊆ cs → ¬ (trim cs).isEmpty = true := by
    intro body cs ht hcs hempty
    obtain ⟨c, hc⟩ := List.exists_mem_of_ne_nil _ (toList_renderBody_ne_nil body)
    have hblank := trim_eq_nil_iff.mp (List.isEmpty_iff.mp hempty) c (hcs hc)
    rw [(h.mem_renderBody ht hc).1] at hblank
    cases hblank
  cases bodies with
  | nil => rfl
  | cons first rest =>
    have hfirst : (renderBody first).toList ⊆ bodiesText (first :: rest) := by
      cases rest <;> simp [bodiesText, List.intercalate_cons_cons]
    rw [RuleLine.readBodies, if_neg (hne (ht first List.mem_cons_self) hfirst), mapM_eq_ok_iff]
    refine (h.forall₂_pieces (List.cons_ne_nil first rest) ht).imp ?_
    rintro piece body ⟨hbody, cs, hcs, rfl⟩
    rw [if_neg (hne hbody (by simp)), List.cons_append, readBody, if_pos (.inl (by decide))]
    exact h.readBody_render hp hbody text hcs

end LanguageTheory.Grammar
