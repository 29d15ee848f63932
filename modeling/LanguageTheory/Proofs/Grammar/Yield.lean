import LanguageTheory.Proofs.Grammar.Productions

/-!
# Words of forms

A form spells a word under an interpretation that gives words to each nonterminal. Productions give
the least interpretation that is closed under their bodies: a form yields a word when each of its
nonterminals is replaced by what one of its bodies yields. This is the same as deriving the word
step by step, and it is what every change of productions is measured by: a production may be added
when its head already has all the words of its body.
-/

namespace LanguageTheory.Grammar

/-- A form spells a word when its terminals, and a word for each of its nonterminals, follow one
another in the word. -/
inductive Spells (words : String → List Char → Prop) : Body → List Char → Prop where
  | nil : Spells words [] []
  | terminal (c : Char) {form : Body} {w : List Char} :
      Spells words form w → Spells words (.terminal c :: form) (c :: w)
  | nonterminal {name : String} {form : Body} {v w : List Char} :
      words name v → Spells words form w → Spells words (.nonterminal name :: form) (v ++ w)

namespace Spells

variable {words others : String → List Char → Prop}

/-- The empty form spells the empty word. -/
theorem nil_iff {w : List Char} : Spells words [] w ↔ w = [] := by
  constructor
  · intro h
    cases h
    rfl
  · intro h
    subst h
    exact .nil

/-- A terminal is the first character of what is spelled. -/
theorem terminal_iff {c : Char} {form : Body} {w : List Char} :
    Spells words (.terminal c :: form) w ↔ ∃ v, w = c :: v ∧ Spells words form v := by
  constructor
  · intro h
    cases h with
    | terminal _ h => exact ⟨_, rfl, h⟩
  · rintro ⟨v, rfl, h⟩
    exact .terminal c h

/-- A nonterminal gives the first part of what is spelled. -/
theorem nonterminal_iff {name : String} {form : Body} {w : List Char} :
    Spells words (.nonterminal name :: form) w ↔
      ∃ u v, w = u ++ v ∧ words name u ∧ Spells words form v := by
  constructor
  · intro h
    cases h with
    | nonterminal hu hv => exact ⟨_, _, rfl, hu, hv⟩
  · rintro ⟨u, v, rfl, hu, hv⟩
    exact .nonterminal hu hv

/-- A single nonterminal spells its words. -/
theorem single_iff {name : String} {w : List Char} :
    Spells words [.nonterminal name] w ↔ words name w := by
  rw [nonterminal_iff]
  constructor
  · rintro ⟨u, v, rfl, hu, hv⟩
    rw [nil_iff.mp hv, List.append_nil]
    exact hu
  · intro h
    exact ⟨w, [], (List.append_nil w).symm, h, .nil⟩

/-- A concatenation spells the concatenations. -/
theorem append_iff {before after : Body} {w : List Char} :
    Spells words (before ++ after) w ↔
      ∃ u v, w = u ++ v ∧ Spells words before u ∧ Spells words after v := by
  induction before generalizing w with
  | nil =>
    constructor
    · intro h
      exact ⟨[], w, rfl, .nil, h⟩
    · rintro ⟨u, v, rfl, hu, hv⟩
      rw [nil_iff.mp hu]
      exact hv
  | cons t before ih =>
    cases t with
    | terminal c =>
      rw [List.cons_append, terminal_iff]
      constructor
      · rintro ⟨x, rfl, hx⟩
        obtain ⟨u, v, rfl, hu, hv⟩ := ih.mp hx
        exact ⟨c :: u, v, rfl, .terminal c hu, hv⟩
      · rintro ⟨u, v, rfl, hu, hv⟩
        obtain ⟨x, rfl, hx⟩ := terminal_iff.mp hu
        exact ⟨x ++ v, rfl, ih.mpr ⟨x, v, rfl, hx, hv⟩⟩
    | nonterminal name =>
      rw [List.cons_append, nonterminal_iff]
      constructor
      · rintro ⟨x, y, rfl, hx, hy⟩
        obtain ⟨u, v, rfl, hu, hv⟩ := ih.mp hy
        exact ⟨x ++ u, v, (List.append_assoc x u v).symm, .nonterminal hx hu, hv⟩
      · rintro ⟨u, v, rfl, hu, hv⟩
        obtain ⟨x, y, rfl, hx, hy⟩ := nonterminal_iff.mp hu
        exact ⟨x, y ++ v, List.append_assoc x y v, hx, ih.mpr ⟨y, v, rfl, hy, hv⟩⟩

/-- What a form spells begins with what its first token spells. -/
theorem cons_iff {t : Token} {form : Body} {w : List Char} :
    Spells words (t :: form) w ↔ ∃ u v, w = u ++ v ∧ Spells words [t] u ∧ Spells words form v := by
  rw [← List.singleton_append, append_iff]

/-- A form spells the concatenation of what its parts spell. -/
theorem append {before after : Body} {u v : List Char} (hu : Spells words before u)
    (hv : Spells words after v) : Spells words (before ++ after) (u ++ v) :=
  append_iff.mpr ⟨u, v, rfl, hu, hv⟩

/-- A form spells no less when its own nonterminals have no fewer words. -/
theorem mono {form : Body} {w : List Char}
    (h : ∀ name, .nonterminal name ∈ form → ∀ v, words name v → others name v)
    (hw : Spells words form w) : Spells others form w := by
  induction hw with
  | nil => exact .nil
  | terminal c _ ih => exact .terminal c (ih fun name hm ↦ h name (by simp [hm]))
  | nonterminal hv _ ih =>
    exact .nonterminal (h _ (by simp) _ hv) (ih fun name hm ↦ h name (by simp [hm]))

/-- Every nonterminal of a form that spells a word has a word. -/
theorem exists_word {form : Body} {w : List Char} (hw : Spells words form w) {name : String}
    (hm : .nonterminal name ∈ form) : ∃ v, words name v := by
  induction hw with
  | nil => cases hm
  | terminal c _ ih =>
    rw [List.mem_cons] at hm
    exact ih (hm.resolve_left (by simp))
  | nonterminal hv _ ih =>
    rcases List.mem_cons.mp hm with he | hm
    · cases he
      exact ⟨_, hv⟩
    · exact ih hm

/-- A form spells some word when each of its nonterminals has a word. -/
theorem exists_of_forall {form : Body} (h : ∀ name, .nonterminal name ∈ form → ∃ v, words name v) :
    ∃ w, Spells words form w := by
  induction form with
  | nil => exact ⟨[], .nil⟩
  | cons t form ih =>
    obtain ⟨w, hw⟩ := ih fun name hm ↦ h name (List.mem_cons_of_mem _ hm)
    cases t with
    | terminal c => exact ⟨c :: w, .terminal c hw⟩
    | nonterminal name =>
      obtain ⟨v, hv⟩ := h name (by simp)
      exact ⟨v ++ w, .nonterminal hv hw⟩

/-- A form spells no less than another one when, token by token, each of its tokens does. -/
theorem of_forall₂ {form next : Body} {w : List Char}
    (h : List.Forall₂ (fun s t ↦ ∀ v, Spells words [s] v → Spells others [t] v) form next)
    (hw : Spells words form w) : Spells others next w := by
  induction h generalizing w with
  | nil =>
    rw [nil_iff.mp hw]
    exact .nil
  | cons hst _ ih =>
    obtain ⟨u, v, rfl, hu, hv⟩ := cons_iff.mp hw
    exact cons_iff.mpr ⟨u, v, rfl, hst u hu, ih hv⟩

/-- A form with other tokens spells no less when each of them spells no less. -/
theorem map {f : Token → Token} {form : Body} {w : List Char}
    (h : ∀ t ∈ form, ∀ v, Spells words [t] v → Spells others [f t] v) (hw : Spells words form w) :
    Spells others (form.map f) w :=
  hw.of_forall₂ (List.forall₂_map_right_iff.mpr (List.forall₂_same.mpr h))

/-- A form with other tokens spells no more when each of them spells no more. -/
theorem of_map {f : Token → Token} {form : Body} {w : List Char}
    (h : ∀ t ∈ form, ∀ v, Spells others [f t] v → Spells words [t] v)
    (hw : Spells others (form.map f) w) : Spells words form w :=
  hw.of_forall₂ (List.forall₂_map_left_iff.mpr (List.forall₂_same.mpr h))

/-- The terminals of a form are characters of what it spells. -/
theorem mem_of_terminal_mem {form : Body} {w : List Char} (hw : Spells words form w) {c : Char}
    (hc : .terminal c ∈ form) : c ∈ w := by
  induction hw with
  | nil => cases hc
  | terminal d _ ih =>
    rcases List.mem_cons.mp hc with he | hc
    · cases he
      exact List.mem_cons_self
    · exact List.mem_cons_of_mem d (ih hc)
  | nonterminal _ _ ih =>
    rw [List.mem_cons] at hc
    exact List.mem_append_right _ (ih (hc.resolve_left (by simp)))

/-- If no nonterminal of a form has the empty word, then no token of the form is lost. -/
theorem length_le {form : Body} {w : List Char} (hw : Spells words form w)
    (h : ∀ name, .nonterminal name ∈ form → ¬ words name []) : form.length ≤ w.length := by
  induction hw with
  | nil => exact Nat.le_refl _
  | terminal c _ ih =>
    have hle := ih fun name hm ↦ h name (by simp [hm])
    simp only [List.length_cons]
    omega
  | @nonterminal name form v w hv _ ih =>
    have hle := ih fun name hm ↦ h name (by simp [hm])
    have hpos : 0 < v.length := by
      rw [List.length_pos_iff]
      intro he
      subst he
      exact h name (by simp) hv
    simp only [List.length_cons, List.length_append]
    omega

end Spells

namespace Productions

/-- A form yields a word when each of its nonterminals is replaced by what one of its bodies
yields. -/
inductive Yields (p : Productions) : Body → List Char → Prop where
  | nil : Yields p [] []
  | terminal (c : Char) {form : Body} {w : List Char} :
      Yields p form w → Yields p (.terminal c :: form) (c :: w)
  | nonterminal {name : String} {body form : Body} {v w : List Char} :
      body ∈ p.bodies name → Yields p body v → Yields p form w →
        Yields p (.nonterminal name :: form) (v ++ w)

/-- The words of a nonterminal. -/
def Language (p : Productions) (name : String) (w : List Char) : Prop :=
  ∃ body ∈ p.bodies name, p.Yields body w

/-- What a form yields is what it spells with the words of its nonterminals. -/
theorem yields_iff_spells {p : Productions} {form : Body} {w : List Char} :
    p.Yields form w ↔ Spells p.Language form w := by
  constructor
  · intro h
    induction h with
    | nil => exact .nil
    | terminal c _ ih => exact .terminal c ih
    | nonterminal hb hv _ _ ih => exact .nonterminal ⟨_, hb, hv⟩ ih
  · intro h
    induction h with
    | nil => exact .nil
    | terminal c _ ih => exact .terminal c ih
    | nonterminal hv _ ih =>
      obtain ⟨body, hb, hv⟩ := hv
      exact .nonterminal hb hv ih

/-- A word of a body is a word of its head. -/
theorem language_of_spells {p : Productions} {name : String} {body : Body} {w : List Char}
    (hb : body ∈ p.bodies name) (hw : Spells p.Language body w) : p.Language name w :=
  ⟨body, hb, yields_iff_spells.mpr hw⟩

/-- A word of a nonterminal is a word of one of its bodies. -/
theorem language_iff {p : Productions} {name : String} {w : List Char} :
    p.Language name w ↔ ∃ body ∈ p.bodies name, Spells p.Language body w := by
  simp only [Language, yields_iff_spells]

/-- The words of the nonterminals are the least interpretation that is closed under the bodies. -/
theorem spells_of_closed {p : Productions} {words : String → List Char → Prop}
    (closed : ∀ name, ∀ body ∈ p.bodies name, ∀ w, Spells words body w → words name w)
    {form : Body} {w : List Char} (h : p.Yields form w) : Spells words form w := by
  induction h with
  | nil => exact .nil
  | terminal c _ ih => exact .terminal c ih
  | nonterminal hb _ _ ihv ihw => exact .nonterminal (closed _ _ hb _ ihv) ihw

/-- An interpretation that is closed under the bodies has all the words of the nonterminals. -/
theorem language_induction {p : Productions} {motive : String → List Char → Prop}
    (closed : ∀ name, ∀ body ∈ p.bodies name, ∀ w, Spells motive body w → motive name w)
    {name : String} {w : List Char} (h : p.Language name w) : motive name w := by
  obtain ⟨body, hb, hw⟩ := h
  exact closed name body hb w (spells_of_closed closed hw)

/-- As `language_induction`, when in addition what a body spells is made of words. -/
theorem language_induction_of_words {p : Productions} {motive : String → List Char → Prop}
    (closed : ∀ name, ∀ body ∈ p.bodies name, ∀ w,
      Spells (fun m v ↦ p.Language m v ∧ motive m v) body w → motive name w)
    {name : String} {w : List Char} (h : p.Language name w) : motive name w := by
  refine (language_induction (motive := fun m v ↦ p.Language m v ∧ motive m v) ?_ h).2
  intro m body hb v hv
  exact ⟨language_of_spells hb (hv.mono fun _ _ _ hu ↦ hu.1), closed m body hb v hv⟩

/-- A nonterminal has no fewer words when every nonterminal has no fewer bodies. -/
theorem language_mono {p q : Productions}
    (h : ∀ name, ∀ body ∈ p.bodies name, body ∈ q.bodies name) {name : String} {w : List Char}
    (hw : p.Language name w) : q.Language name w :=
  language_induction (fun name body hb _ hv ↦ language_of_spells (h name body hb) hv) hw

end Productions

/-! ### Derivations -/

/-- Derivations follow one another. -/
theorem Derives.trans {g : Grammar} {form next last : Body} (h : g.Derives form next)
    (h' : g.Derives next last) : g.Derives form last := by
  induction h with
  | refl => exact h'
  | step hs _ ih => exact .step hs (ih h')

/-- A step is one of every grammar that has the bodies. -/
theorem Step.mono {g h : Grammar} (hbodies : ∀ name, ∀ body ∈ g.bodies name, body ∈ h.bodies name)
    {form next : Body} (hs : g.Step form next) : h.Step form next := by
  cases hs with
  | replace before after hb => exact .replace before after (hbodies _ _ hb)

/-- A derivation is one of every grammar that has the bodies. -/
theorem Derives.mono {g h : Grammar}
    (hbodies : ∀ name, ∀ body ∈ g.bodies name, body ∈ h.bodies name) {form last : Body}
    (hd : g.Derives form last) : h.Derives form last := by
  induction hd with
  | refl form => exact .refl form
  | step hs _ ih => exact .step (hs.mono hbodies) ih

/-- A step is taken between other tokens as well. -/
theorem Step.append {g : Grammar} {form next : Body} (h : g.Step form next)
    (before after : Body) : g.Step (before ++ form ++ after) (before ++ next ++ after) := by
  cases h with
  | replace b a hb =>
    have h := Step.replace (before ++ b) (a ++ after) hb
    simpa only [List.append_assoc, List.cons_append] using h

/-- A derivation is made between other tokens as well. -/
theorem Derives.append {g : Grammar} {form last : Body} (h : g.Derives form last)
    (before after : Body) : g.Derives (before ++ form ++ after) (before ++ last ++ after) := by
  induction h with
  | refl => exact .refl _
  | step hs _ ih => exact .step (hs.append before after) ih

/-- What a form yields it derives. -/
theorem Productions.Yields.derives {g : Grammar} {form : Body} {w : List Char}
    (h : g.productions.Yields form w) : g.Derives form (w.map .terminal) := by
  induction h with
  | nil => exact .refl []
  | terminal c _ ih => simpa using ih.append [.terminal c] []
  | @nonterminal name body form v w hb _ _ ihv ihw =>
    have hstep : g.Step (.nonterminal name :: form) (body ++ form) := .replace [] form hb
    have hbody : g.Derives (body ++ form) (v.map .terminal ++ form) := by
      simpa using ihv.append [] form
    have hform : g.Derives (v.map .terminal ++ form) (v.map .terminal ++ w.map .terminal) := by
      simpa using ihw.append (v.map .terminal) []
    rw [List.map_append]
    exact .step hstep (hbody.trans hform)

/-- A form derives a word exactly when it yields the word. -/
theorem derives_iff_yields {g : Grammar} {form : Body} {w : List Char} :
    g.Derives form (w.map .terminal) ↔ g.productions.Yields form w := by
  constructor
  · intro h
    generalize hl : w.map Token.terminal = last at h
    induction h with
    | refl form =>
      subst hl
      induction w with
      | nil => exact .nil
      | cons c w ih => exact .terminal c ih
    | @step form next last hs _ ih =>
      have hnext := Productions.yields_iff_spells.mp (ih hl)
      apply Productions.yields_iff_spells.mpr
      cases hs with
      | replace before after hb =>
        obtain ⟨x, y, rfl, hx, hy⟩ := Spells.append_iff.mp hnext
        obtain ⟨u, v, rfl, hu, hv⟩ := Spells.append_iff.mp hx
        rw [List.append_assoc]
        exact hu.append (.nonterminal (Productions.language_of_spells hb hv) hy)
  · exact fun h ↦ h.derives

/-- A nonterminal derives its words. -/
theorem derives_iff_language {g : Grammar} {name : String} {w : List Char} :
    g.Derives [.nonterminal name] (w.map .terminal) ↔ g.productions.Language name w := by
  rw [derives_iff_yields, Productions.yields_iff_spells, Spells.single_iff]

/-- A grammar generates the words of its start symbol. -/
theorem generates_iff {g : Grammar} {w : List Char} :
    g.Generates w ↔ g.productions.Language g.start w := derives_iff_language

/-- The characters of what a form yields are used, or they are terminals of the form. -/
theorem Productions.Yields.uses {p : Productions} {form : Body} {w : List Char}
    (h : p.Yields form w) {c : Char} (hc : c ∈ w) : .terminal c ∈ form ∨ p.Uses (.terminal c) := by
  induction h with
  | nil => cases hc
  | terminal d _ ih =>
    rcases List.mem_cons.mp hc with rfl | hc
    · exact Or.inl List.mem_cons_self
    · exact (ih hc).imp_left (List.mem_cons_of_mem _)
  | nonterminal hb _ _ ihv ihw =>
    rcases List.mem_append.mp hc with hc | hc
    · exact Or.inr ((ihv hc).elim (.of_mem hb) id)
    · exact (ihw hc).imp_left (List.mem_cons_of_mem _)

/-- The words of a well-formed grammar consist of its terminals. -/
theorem WellFormed.mem_terminals {g : Grammar} (hg : g.WellFormed) {name : String} {w : List Char}
    (hw : g.productions.Language name w) {c : Char} (hc : c ∈ w) : c ∈ g.terminals := by
  obtain ⟨_, _, hterminals⟩ := wellFormed_iff.mp hg
  obtain ⟨body, hb, hbody⟩ := hw
  exact hterminals c ((hbody.uses hc).elim (.of_mem hb) id)

end LanguageTheory.Grammar
