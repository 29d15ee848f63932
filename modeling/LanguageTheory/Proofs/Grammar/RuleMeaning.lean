import LanguageTheory.Proofs.Grammar.RuleText

/-!
# The meaning of rule text

What a line of rule text says, without reference to the way in which it is read: its head, its
alternatives and the body that each alternative denotes. A line is read exactly when it has a head,
and its bodies are read exactly when no alternative is blank and each denotes a body of declared
tokens; what is read is then what the line says.
-/

namespace LanguageTheory.Grammar

variable {isName : String → Prop} {terminals : Alphabet} {p : Productions} {c : Char}
  {cs name : List Char} {body rest : Body}

/-- The body that an alternative denotes: blanks and `ε` are skipped, `<name>` is a nonterminal, and
another character is a nonterminal if it is a name, and a terminal otherwise. -/
inductive Denotes (isName : String → Prop) : List Char → Body → Prop where
  | done : Denotes isName [] []
  | skipped {c : Char} {cs : List Char} {body : Body} :
      isBlank c = true ∨ c = epsilonChar → Denotes isName cs body → Denotes isName (c :: cs) body
  | bracketed {name cs : List Char} {body : Body} :
      '>' ∉ name → Denotes isName cs body →
        Denotes isName ('<' :: (name ++ '>' :: cs)) (.nonterminal (String.ofList name) :: body)
  | named {c : Char} {cs : List Char} {body : Body} :
      ¬ (isBlank c = true ∨ c = epsilonChar) → c ≠ '<' → isName c.toString →
        Denotes isName cs body → Denotes isName (c :: cs) (.nonterminal c.toString :: body)
  | terminal {c : Char} {cs : List Char} {body : Body} :
      ¬ (isBlank c = true ∨ c = epsilonChar) → c ≠ '<' → ¬ isName c.toString →
        Denotes isName cs body → Denotes isName (c :: cs) (.terminal c :: body)

/-- The alternatives of the text after the colon of a rule: the texts without bars that make up the
text when they are joined by bars. A blank text has none. -/
inductive Alternatives (bodies : List Char) : List (List Char) → Prop where
  | none : (∀ c ∈ bodies, isBlank c = true) → Alternatives bodies []
  | joined {parts : List (List Char)} :
      (∃ c ∈ bodies, isBlank c = false) → parts ≠ [] → (∀ part ∈ parts, '|' ∉ part) →
        ['|'].intercalate parts = bodies → Alternatives bodies parts

/-- A text without the blanks around it. -/
def IsCore (cs core : List Char) : Prop :=
  ∃ left right, cs = left ++ core ++ right ∧ (∀ c ∈ left ++ right, isBlank c = true) ∧
    (∀ c ∈ core.head?, isBlank c = false) ∧ ∀ c ∈ core.getLast?, isBlank c = false

/-- The name before the colon of a rule: in angle brackets or bare, with blanks around it. -/
def IsHead (cs : List Char) (name : String) : Prop :=
  IsCore cs ('<' :: (name.toList ++ ['>'])) ∨
    IsCore cs name.toList ∧ ∀ inner, name.toList ≠ '<' :: (inner ++ ['>'])

/-- A line with a head and the text after its first colon. -/
def IsRule (text head : String) (bodies : List Char) : Prop :=
  ∃ before, text.toList = before ++ ':' :: bodies ∧ ':' ∉ before ∧ IsHead before head

/-- A line with a head and one of its alternatives. -/
def HasAlternative (text head : String) (part : List Char) : Prop :=
  ∃ bodies parts, IsRule text head bodies ∧ Alternatives bodies parts ∧ part ∈ parts

/-! ### Bodies -/

/-- An empty text denotes the empty body. -/
theorem denotes_nil_iff : Denotes isName [] body ↔ body = [] := by
  constructor
  · rintro ⟨⟩
    rfl
  · rintro rfl
    exact .done

/-- A blank and `ε` are skipped. -/
theorem denotes_cons_of_skipped (h : isBlank c = true ∨ c = epsilonChar) :
    Denotes isName (c :: cs) body ↔ Denotes isName cs body := by
  refine ⟨fun hbody ↦ ?_, .skipped h⟩
  cases hbody with
  | skipped _ hrest => exact hrest
  | bracketed _ _ => exact absurd h (by decide)
  | named hplain _ _ _ => exact absurd h hplain
  | terminal hplain _ _ _ => exact absurd h hplain

/-- What stands in angle brackets is a nonterminal. -/
theorem denotes_open_iff : Denotes isName ('<' :: cs) body ↔ ∃ name after,
    cut? '>' cs = some (name, after) ∧
      ∃ tail, body = .nonterminal (String.ofList name) :: tail ∧ Denotes isName after tail := by
  constructor
  · intro h
    cases h with
    | skipped hskip _ => exact absurd hskip (by decide)
    | bracketed hname hrest => exact ⟨_, _, cut?_append_cons hname, _, rfl, hrest⟩
    | named _ hopen _ _ => exact absurd rfl hopen
    | terminal _ hopen _ _ => exact absurd rfl hopen
  · rintro ⟨name, after, hcut, tail, rfl, htail⟩
    obtain ⟨rfl, hname⟩ := cut?_eq_some_iff.mp hcut
    exact .bracketed hname htail

section Plain

variable (hplain : ¬ (isBlank c = true ∨ c = epsilonChar)) (hopen : c ≠ '<')

include hplain hopen

/-- Another character is a nonterminal if it is a name. -/
theorem denotes_named_iff (hname : isName c.toString) : Denotes isName (c :: cs) body ↔
    ∃ tail, body = .nonterminal c.toString :: tail ∧ Denotes isName cs tail := by
  constructor
  · intro h
    cases h with
    | skipped hskip _ => exact absurd hskip hplain
    | bracketed _ _ => exact absurd rfl hopen
    | named _ _ _ hrest => exact ⟨_, rfl, hrest⟩
    | terminal _ _ hname' _ => exact absurd hname hname'
  · rintro ⟨tail, rfl, htail⟩
    exact .named hplain hopen hname htail

/-- Another character is a terminal if it is no name. -/
theorem denotes_terminal_iff (hname : ¬ isName c.toString) : Denotes isName (c :: cs) body ↔
    ∃ tail, body = .terminal c :: tail ∧ Denotes isName cs tail := by
  constructor
  · intro h
    cases h with
    | skipped hskip _ => exact absurd hskip hplain
    | bracketed _ _ => exact absurd rfl hopen
    | named _ _ hname' _ => exact absurd hname' hname
    | terminal _ _ _ hrest => exact ⟨_, rfl, hrest⟩
  · rintro ⟨tail, rfl, htail⟩
    exact .terminal hplain hopen hname htail

end Plain

/-- An alternative denotes one body at most. -/
theorem Denotes.unique {body' : Body} (h : Denotes isName cs body)
    (h' : Denotes isName cs body') : body = body' := by
  induction h generalizing body' with
  | done => exact (denotes_nil_iff.mp h').symm
  | skipped hskip _ ih => exact ih ((denotes_cons_of_skipped hskip).mp h')
  | bracketed hname _ ih =>
    obtain ⟨name', after', hcut, tail, rfl, htail⟩ := denotes_open_iff.mp h'
    rw [cut?_append_cons hname] at hcut
    cases hcut
    rw [ih htail]
  | named hplain hopen hname _ ih =>
    obtain ⟨tail, rfl, htail⟩ := (denotes_named_iff hplain hopen hname).mp h'
    rw [ih htail]
  | terminal hplain hopen hname _ ih =>
    obtain ⟨tail, rfl, htail⟩ := (denotes_terminal_iff hplain hopen hname).mp h'
    rw [ih htail]

/-- A declared token is put before what is read of the rest. -/
theorem map_cons_eq_ok_iff (first : Token) {x : Except Error Body} {denoted : Body → Prop}
    (hfirst : Declared terminals p first)
    (hrest : ∀ tail, x = .ok tail ↔ denoted tail ∧ ∀ t ∈ tail, Declared terminals p t) :
    (first :: ·) <$> x = .ok body ↔
      (∃ tail, body = first :: tail ∧ denoted tail) ∧ ∀ t ∈ body, Declared terminals p t := by
  rw [map_eq_ok_iff]
  constructor
  · rintro ⟨tail, hx, rfl⟩
    obtain ⟨htail, hdeclared⟩ := (hrest tail).mp hx
    exact ⟨⟨tail, rfl, htail⟩, List.forall_mem_cons.mpr ⟨hfirst, hdeclared⟩⟩
  · rintro ⟨⟨tail, rfl, htail⟩, hdeclared⟩
    exact ⟨tail, (hrest tail).mpr ⟨htail, (List.forall_mem_cons.mp hdeclared).2⟩, rfl⟩

/-- An alternative is read as the body that it denotes, if all tokens of this body are declared. -/
theorem readBody_eq_ok_iff {rule : String} : readBody terminals p rule cs = .ok body ↔
    Denotes (· ∈ p.keys) cs body ∧ ∀ t ∈ body, Declared terminals p t := by
  -- What is not declared is the first token of every body that the text can denote.
  have hundeclared : ∀ first (cs : List Char) {e : Error} {body : Body},
      ¬ Declared terminals p first →
        ((.error e : Except Error Body) = .ok body ↔
          (∃ tail, body = first :: tail ∧ Denotes (· ∈ p.keys) cs tail) ∧
            ∀ t ∈ body, Declared terminals p t) := by
    intro first cs e body hfirst
    refine iff_of_false (by simp) ?_
    rintro ⟨⟨tail, rfl, -⟩, hdeclared⟩
    exact hfirst (hdeclared first List.mem_cons_self)
  fun_induction readBody terminals p rule cs generalizing body with
  | case1 =>
    rw [Except.ok.injEq, denotes_nil_iff, eq_comm]
    exact (and_iff_left_of_imp fun hbody ↦ by simp [hbody]).symm
  | case2 c cs hskip ih => exact ih.trans (and_congr_left' (denotes_cons_of_skipped hskip).symm)
  | case3 cs hcut hskip =>
    rw [denotes_open_iff, hcut]
    simp
  | case4 cs name after hcut hmem hskip ih =>
    rw [map_cons_eq_ok_iff (.nonterminal (String.ofList name)) hmem fun _ ↦ ih, denotes_open_iff]
    simp [hcut]
  | case5 cs name after hcut hmem hskip =>
    rw [denotes_open_iff, hundeclared (.nonterminal (String.ofList name)) after hmem]
    simp [hcut]
  | case6 c cs hskip hopen hmem ih =>
    rw [denotes_named_iff hskip hopen hmem]
    exact map_cons_eq_ok_iff (.nonterminal c.toString) hmem fun _ ↦ ih
  | case7 c cs hskip hopen hname hmem ih =>
    rw [denotes_terminal_iff hskip hopen hname]
    exact map_cons_eq_ok_iff (.terminal c) hmem fun _ ↦ ih
  | case8 c cs hskip hopen hname hmem =>
    rw [denotes_terminal_iff hskip hopen hname]
    exact hundeclared (.terminal c) cs hmem

/-! ### Alternatives -/

/-- The alternatives of a rule are its pieces between bars, unless it is blank. -/
theorem alternatives_iff {bodies : List Char} {parts : List (List Char)} :
    Alternatives bodies parts ↔
      parts = if (trim bodies).isEmpty then [] else pieces '|' bodies := by
  have hempty : (trim bodies).isEmpty = true ↔ ∀ c ∈ bodies, isBlank c = true := by
    rw [List.isEmpty_iff, trim_eq_nil_iff]
  constructor
  · intro h
    cases h with
    | none hblank => rw [if_pos (hempty.mpr hblank)]
    | joined hvisible hne hparts hjoin =>
      obtain ⟨c, hc, hblank⟩ := hvisible
      rw [if_neg fun h ↦ by simp [hempty.mp h c hc] at hblank]
      exact (pieces_eq_iff.mpr ⟨hne, hparts, hjoin⟩).symm
  · rintro rfl
    split
    · next h => exact .none (hempty.mp h)
    · next h =>
      obtain ⟨hne, hparts, hjoin⟩ := pieces_eq_iff.mp (Eq.refl (pieces '|' bodies))
      have hvisible : ∃ c ∈ bodies, isBlank c = false := by simpa [hempty] using h
      exact .joined hvisible hne hparts hjoin

/-- A rule has alternatives. -/
theorem exists_alternatives (bodies : List Char) : ∃ parts, Alternatives bodies parts :=
  ⟨_, alternatives_iff.mpr rfl⟩

/-- A rule has one list of alternatives only. -/
theorem Alternatives.unique {bodies : List Char} {parts parts' : List (List Char)}
    (h : Alternatives bodies parts) (h' : Alternatives bodies parts') : parts = parts' :=
  (alternatives_iff.mp h).trans (alternatives_iff.mp h').symm

/-! ### Lines -/

/-- The brackets around a name are left out. -/
theorem stripBrackets_eq_iff {core inner : List Char} : stripBrackets core = inner ↔
    core = '<' :: (inner ++ ['>']) ∨ core = inner ∧ ∀ inner', inner ≠ '<' :: (inner' ++ ['>']) := by
  constructor
  · rintro rfl
    unfold stripBrackets
    split
    · next inner =>
      split
      · next hlast =>
        obtain ⟨name, rfl⟩ := List.getLast?_eq_some_iff.mp hlast
        exact .inl (by rw [List.dropLast_concat])
      · next hlast =>
        refine .inr ⟨rfl, fun name hname ↦ hlast ?_⟩
        rw [(List.cons.inj hname).2, List.getLast?_concat]
    · next hopen => exact .inr ⟨rfl, fun name hname ↦ hopen _ hname⟩
  · rintro (rfl | ⟨rfl, hbare⟩)
    · simp [stripBrackets]
    · unfold stripBrackets
      split
      · next name =>
        refine if_neg fun hlast ↦ ?_
        obtain ⟨inner, rfl⟩ := List.getLast?_eq_some_iff.mp hlast
        exact hbare inner rfl
      · rfl

/-- The head of a rule is what is left of the text before the colon without blanks and brackets. -/
theorem isHead_iff {name : String} : IsHead cs name ↔ stripBrackets (trim cs) = name.toList := by
  rw [stripBrackets_eq_iff, trim_eq_iff, IsHead, IsCore]
  refine or_congr_right (and_congr_left fun _ ↦ ?_)
  exact trim_eq_iff.symm

/-- A line is read when it has a head that is not empty. -/
theorem read_eq_ok_iff {text : String} {r : RuleLine} : RuleLine.read text = .ok r ↔
    r.text = text ∧ IsRule text r.head r.bodies ∧ r.head.toList ≠ [] := by
  unfold RuleLine.read
  constructor
  · intro h
    split at h
    · cases h
    · next before after hcut =>
      dsimp only at h
      split at h
      · cases h
      · next hhead =>
        cases h
        obtain ⟨htext, hcolon⟩ := cut?_eq_some_iff.mp hcut
        refine ⟨rfl, ⟨before, htext, hcolon, isHead_iff.mpr ?_⟩, ?_⟩
        · rw [String.toList_ofList]
        · rw [String.toList_ofList]
          exact fun hempty ↦ hhead (List.isEmpty_iff.mpr hempty)
  · rintro ⟨rfl, ⟨before, htext, hcolon, hhead⟩, hne⟩
    rw [cut?_eq_some_iff.mpr ⟨htext, hcolon⟩]
    dsimp only
    rw [isHead_iff.mp hhead, if_neg (by rwa [List.isEmpty_iff]), String.ofList_toList]

/-- A line has one head and one text after its colon only. -/
theorem IsRule.unique {text head head' : String} {bodies bodies' : List Char}
    (h : IsRule text head bodies) (h' : IsRule text head' bodies') :
    head = head' ∧ bodies = bodies' := by
  obtain ⟨before, htext, hcolon, hhead⟩ := h
  obtain ⟨before', htext', hcolon', hhead'⟩ := h'
  have hcut := cut?_eq_some_iff.mpr ⟨htext, hcolon⟩
  rw [cut?_eq_some_iff.mpr ⟨htext', hcolon'⟩] at hcut
  cases hcut
  have hsame := (isHead_iff.mp hhead).symm.trans (isHead_iff.mp hhead')
  exact ⟨String.toList_inj.mp hsame, rfl⟩

/-- A line is read as the bodies that its alternatives denote, if none of these is blank and all
tokens of the bodies are declared. -/
theorem readBodies_eq_ok_iff {r : RuleLine} {bodies : List Body} :
    r.readBodies terminals p = .ok bodies ↔ ∃ parts, Alternatives r.bodies parts ∧
      List.Forall₂ (fun part body ↦ (∃ c ∈ part, isBlank c = false) ∧
        Denotes (· ∈ p.keys) part body ∧ ∀ t ∈ body, Declared terminals p t) parts bodies := by
  have hpiece : ∀ piece body,
      (if (trim piece).isEmpty then .error (.invalidRule r.text)
        else readBody terminals p r.text piece) = .ok body ↔
      (∃ c ∈ piece, isBlank c = false) ∧ Denotes (· ∈ p.keys) piece body ∧
        ∀ t ∈ body, Declared terminals p t := by
    intro piece body
    split
    · next hempty =>
      refine iff_of_false (by simp) ?_
      rintro ⟨⟨c, hc, hvisible⟩, -⟩
      rw [trim_eq_nil_iff.mp (List.isEmpty_iff.mp hempty) c hc] at hvisible
      cases hvisible
    · next hempty =>
      have hvisible : ∃ c ∈ piece, isBlank c = false := by
        simpa [List.isEmpty_iff, trim_eq_nil_iff] using hempty
      rw [readBody_eq_ok_iff, and_iff_right hvisible]
  unfold RuleLine.readBodies
  simp only [alternatives_iff, exists_eq_left]
  split
  · rw [Except.ok.injEq, List.forall₂_nil_left_iff, eq_comm]
  · simp only [mapM_eq_ok_iff, hpiece]

end LanguageTheory.Grammar
