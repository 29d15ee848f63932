import LanguageTheory.Proofs.Grammar.Yield
import LanguageTheory.Proofs.Search.Reachability

/-!
# Meaning of the classes of symbols

Generating nonterminals are those that have a word, nullable ones those that have the empty word.
Reachable symbols, unit closures and left corners are what chains of bodies lead to. The left
corners of a nonterminal are the nonterminals with which forms begin that it derives, also behind a
front that derives the empty word, so that without left recursion no nonterminal derives a form that
begins with itself.
-/

namespace LanguageTheory.Grammar

open OrderedSet (mem_closure_successors_iff)

/-! ### Nonterminals with words -/

/-- The heads that have a body of good tokens. -/
theorem mem_headsWith {g : Grammar} {good : OrderedSet String → Token → Bool}
    {known : OrderedSet String} {name : String} :
    name ∈ g.headsWith good known ↔ ∃ body ∈ g.bodies name, ∀ t ∈ body, good known t = true := by
  unfold headsWith
  rw [OrderedSet.mem_ofList, List.mem_map]
  constructor
  · rintro ⟨⟨head, bodies⟩, he, rfl⟩
    obtain ⟨hmem, hany⟩ := List.mem_filter.mp he
    obtain ⟨body, hb, hall⟩ := List.any_eq_true.mp hany
    have hbody : body ∈ g.bodies head :=
      Productions.mem_bodies_iff.mpr ⟨bodies, Table.get?_eq_some_iff.mpr hmem, hb⟩
    exact ⟨body, hbody, List.all_eq_true.mp hall⟩
  · rintro ⟨body, hb, hall⟩
    obtain ⟨bodies, hn, hb⟩ := Productions.mem_bodies_iff.mp hb
    refine ⟨(name, bodies), List.mem_filter.mpr ⟨Table.get?_eq_some_iff.mp hn, ?_⟩, rfl⟩
    exact List.any_eq_true.mpr ⟨body, hb, List.all_eq_true.mpr hall⟩

/-- A terminal is generating, a nonterminal when it is known to be. -/
theorem isGenerating_iff {known : OrderedSet String} {t : Token} :
    isGenerating known t = true ↔ ∀ name, t = .nonterminal name → name ∈ known := by
  cases t with
  | terminal c => simp [isGenerating, Token.name?]
  | nonterminal m => simp [isGenerating, Token.name?]

/-- Only a nonterminal that is known to be is nullable. -/
theorem isNullable_iff {known : OrderedSet String} {t : Token} :
    isNullable known t = true ↔ ∃ name, t = .nonterminal name ∧ name ∈ known := by
  cases t with
  | terminal c => simp [isNullable, Token.name?]
  | nonterminal m => simp [isNullable, Token.name?]

/-- The generating nonterminals are those that have a word. -/
theorem mem_generating_iff {g : Grammar} {name : String} :
    name ∈ g.generating ↔ ∃ w, g.productions.Language name w := by
  constructor
  · revert name
    apply OrderedSet.closure_induction
    · intro name hn
      cases hn
    · intro known hk name hn
      obtain ⟨body, hb, hall⟩ := mem_headsWith.mp hn
      have hwords : ∀ m, .nonterminal m ∈ body → ∃ w, g.productions.Language m w :=
        fun m hm ↦ hk m (isGenerating_iff.mp (hall _ hm) m rfl)
      obtain ⟨w, hw⟩ := Spells.exists_of_forall hwords
      exact ⟨w, Productions.language_of_spells hb hw⟩
  · rintro ⟨w, hw⟩
    refine Productions.language_induction (motive := fun m _ ↦ m ∈ g.generating) ?_ hw
    intro m body hb v hv
    apply OrderedSet.expand_closure_subset _ (g.bounded_headsWith isGenerating)
    refine mem_headsWith.mpr ⟨body, hb, fun t ht ↦ isGenerating_iff.mpr fun n hn ↦ ?_⟩
    subst hn
    obtain ⟨_, hm⟩ := hv.exists_word ht
    exact hm

/-- A form spells the empty word exactly when each of its tokens is a nonterminal that has it. -/
theorem Spells.empty_iff {words : String → List Char → Prop} {form : Body} :
    Spells words form [] ↔ ∀ t ∈ form, ∃ name, t = .nonterminal name ∧ words name [] := by
  induction form with
  | nil => simp [Spells.nil_iff]
  | cons t form ih =>
    rw [List.forall_mem_cons, ← ih]
    cases t with
    | terminal c => simp [Spells.terminal_iff]
    | nonterminal m =>
      rw [Spells.nonterminal_iff]
      constructor
      · rintro ⟨u, v, he, hu, hv⟩
        obtain ⟨rfl, rfl⟩ := List.append_eq_nil_iff.mp he.symm
        exact ⟨⟨m, rfl, hu⟩, hv⟩
      · rintro ⟨⟨n, he, hn⟩, hv⟩
        cases he
        exact ⟨[], [], rfl, hn, hv⟩

/-- The nullable nonterminals are those that have the empty word. -/
theorem mem_nullable_iff {g : Grammar} {name : String} :
    name ∈ g.nullable ↔ g.productions.Language name [] := by
  constructor
  · revert name
    apply OrderedSet.closure_induction
    · intro name hn
      cases hn
    · intro known hk name hn
      obtain ⟨body, hb, hall⟩ := mem_headsWith.mp hn
      apply Productions.language_of_spells hb
      apply Spells.empty_iff.mpr
      intro t ht
      obtain ⟨m, he, hm⟩ := isNullable_iff.mp (hall t ht)
      exact ⟨m, he, hk m hm⟩
  · intro h
    refine Productions.language_induction (motive := fun m v ↦ v = [] → m ∈ g.nullable) ?_ h rfl
    intro m body hb v hv he
    subst he
    apply OrderedSet.expand_closure_subset _ (g.bounded_headsWith isNullable)
    refine mem_headsWith.mpr ⟨body, hb, fun t ht ↦ ?_⟩
    obtain ⟨n, he, hn⟩ := Spells.empty_iff.mp hv t ht
    exact isNullable_iff.mpr ⟨n, he, hn rfl⟩

/-! ### Symbols that chains of bodies lead to -/

/-- The tokens of the bodies of a token are those of its name. -/
theorem mem_bodyTokens {g : Grammar} {s t : Token} :
    t ∈ g.bodyTokens s ↔ ∃ name, s = .nonterminal name ∧ ∃ body ∈ g.bodies name, t ∈ body := by
  cases s with
  | terminal c => simp [bodyTokens, Token.name?]
  | nonterminal m => simp [bodyTokens, Token.name?]

/-- The start symbol is reachable. -/
theorem start_mem_reachable (g : Grammar) : .nonterminal g.start ∈ g.reachable :=
  OrderedSet.subset_closure _ _ _ _ (OrderedSet.mem_singleton.mpr rfl)

/-- The tokens of the bodies of a reachable nonterminal are reachable. -/
theorem mem_reachable_of_mem_body {g : Grammar} {name : String} {body : Body} {t : Token}
    (hn : .nonterminal name ∈ g.reachable) (hb : body ∈ g.bodies name) (ht : t ∈ body) :
    t ∈ g.reachable := by
  apply OrderedSet.expand_closure_subset _ g.bounded_bodyTokens
  exact OrderedSet.mem_successors.mpr ⟨_, hn, mem_bodyTokens.mpr ⟨name, rfl, body, hb, ht⟩⟩

/-- Whatever holds of the start symbol and is passed on from heads to bodies holds of the reachable
tokens. -/
theorem reachable_induction {g : Grammar} {motive : Token → Prop}
    (start : motive (.nonterminal g.start))
    (step : ∀ name, motive (.nonterminal name) → ∀ body ∈ g.bodies name, ∀ t ∈ body, motive t) :
    ∀ t ∈ g.reachable, motive t := by
  apply OrderedSet.closure_induction
  · intro t ht
    rw [OrderedSet.mem_singleton.mp ht]
    exact start
  · intro known hk t ht
    obtain ⟨s, hs, ht⟩ := OrderedSet.mem_successors.mp ht
    obtain ⟨name, rfl, body, hb, ht⟩ := mem_bodyTokens.mp ht
    exact step name (hk _ hs) body hb t ht

/-- A derivation from reachable tokens stays in reachable tokens. -/
theorem Derives.mem_reachable {g : Grammar} {form last : Body} (h : g.Derives form last)
    (hform : ∀ t ∈ form, t ∈ g.reachable) : ∀ t ∈ last, t ∈ g.reachable := by
  induction h with
  | refl => exact hform
  | step hs _ ih =>
    apply ih
    cases hs with
    | @replace before after name body hb =>
      intro t ht
      rcases List.mem_append.mp ht with ht | ht
      · rcases List.mem_append.mp ht with ht | ht
        · exact hform t (List.mem_append_left _ ht)
        · exact mem_reachable_of_mem_body (hform _ (by simp)) hb ht
      · exact hform t (List.mem_append_right _ (List.mem_cons_of_mem _ ht))

/-- The reachable tokens are those of the forms that the start symbol derives. -/
theorem mem_reachable_iff {g : Grammar} {t : Token} :
    t ∈ g.reachable ↔ ∃ form, g.Derives [.nonterminal g.start] form ∧ t ∈ form := by
  constructor
  · revert t
    apply reachable_induction
    · exact ⟨_, .refl _, List.mem_singleton.mpr rfl⟩
    · rintro name ⟨form, hform, hname⟩ body hb t ht
      obtain ⟨before, after, rfl⟩ := List.append_of_mem hname
      have hstep := Step.replace before after hb
      exact ⟨_, hform.trans (.step hstep (.refl _)), by simp [ht]⟩
  · rintro ⟨form, hform, ht⟩
    refine hform.mem_reachable (fun s hs ↦ ?_) t ht
    rw [List.mem_singleton.mp hs]
    exact g.start_mem_reachable

/-- The classes of symbols mean what derivations say: a nonterminal is generating when it derives a
word and nullable when it derives the empty word, and a token is reachable when it occurs in a form
that the start symbol derives. -/
theorem generating_nullable_reachable_iff_derives (g : Grammar) :
    (∀ name, name ∈ g.generating ↔
      ∃ w : List Char, g.Derives [.nonterminal name] (w.map .terminal)) ∧
    (∀ name, name ∈ g.nullable ↔ g.Derives [.nonterminal name] []) ∧
    ∀ t, t ∈ g.reachable ↔ ∃ form, g.Derives [.nonterminal g.start] form ∧ t ∈ form := by
  refine ⟨fun name ↦ ?_, fun name ↦ ?_, fun t ↦ mem_reachable_iff⟩
  · simp only [mem_generating_iff, derives_iff_language]
  · exact mem_nullable_iff.trans (derives_iff_language (w := [])).symm

/-- A nonterminal is useful when it derives a word and the start symbol derives a form that has
it. -/
def Useful (g : Grammar) (name : String) : Prop :=
  (∃ w : List Char, g.Derives [.nonterminal name] (w.map .terminal)) ∧
    ∃ before after, g.Derives [.nonterminal g.start] (before ++ .nonterminal name :: after)

/-- The useful nonterminals are those that are generating and reachable. -/
theorem useful_iff {g : Grammar} {name : String} :
    g.Useful name ↔ name ∈ g.generating ∧ .nonterminal name ∈ g.reachable := by
  unfold Useful
  rw [mem_generating_iff, mem_reachable_iff]
  simp only [derives_iff_language]
  refine and_congr_right fun _ ↦ ⟨?_, ?_⟩
  · rintro ⟨before, after, h⟩
    exact ⟨_, h, by simp⟩
  · rintro ⟨form, hform, hname⟩
    obtain ⟨before, after, rfl⟩ := List.append_of_mem hname
    exact ⟨before, after, hform⟩

/-- A body is a unit when it is a nonterminal by itself. -/
theorem unit?_eq_some_iff {body : Body} {name : String} :
    unit? body = some name ↔ body = [.nonterminal name] := by
  unfold unit?
  split
  · simp
  · next hne =>
    constructor
    · intro h
      cases h
    · intro h
      exact absurd h (hne name)

/-- The units of a nonterminal are its bodies of one nonterminal. -/
theorem mem_units {g : Grammar} {name unit : String} :
    unit ∈ g.units name ↔ [.nonterminal unit] ∈ g.bodies name := by
  unfold units
  rw [List.mem_filterMap]
  constructor
  · rintro ⟨body, hb, hu⟩
    rw [← unit?_eq_some_iff.mp hu]
    exact hb
  · intro h
    exact ⟨_, h, rfl⟩

/-- A unit closure has what chains of units lead to. -/
theorem mem_unitClosure_iff {g : Grammar} {name unit : String} :
    unit ∈ g.unitClosure name ↔
      Relation.ReflTransGen (fun a b ↦ b ∈ g.units a) name unit := by
  unfold unitClosure
  rw [mem_closure_successors_iff]
  simp

/-! ### Left corners -/

/-- A left corner is what a chain of one or more fronts leads to. -/
theorem mem_leftCorners_iff {g : Grammar} {name corner : String} :
    corner ∈ g.leftCorners name ↔
      Relation.TransGen (fun a b ↦ b ∈ g.directCorners g.nullable a) name corner := by
  unfold leftCorners
  rw [mem_closure_successors_iff, Relation.TransGen.head'_iff]
  simp

/-- A grammar is left recursive when a nonterminal is a left corner of itself. -/
theorem isLeftRecursive_iff {g : Grammar} :
    g.isLeftRecursive = true ↔ ∃ name ∈ g.nonterminals, name ∈ g.leftCorners name := by
  unfold isLeftRecursive
  simp

/-- The front of a concatenation goes on when its first part is nullable. -/
theorem mem_corners_append_iff {nullable : OrderedSet String} {before after : Body}
    {name : String} :
    name ∈ corners nullable (before ++ after) ↔
      name ∈ corners nullable before ∨
        (∀ t ∈ before, isNullable nullable t = true) ∧ name ∈ corners nullable after := by
  induction before with
  | nil => simp [corners]
  | cons t before ih =>
    cases t with
    | terminal c => simp [corners, isNullable, Token.name?]
    | nonterminal m =>
      rw [List.cons_append]
      by_cases hm : m ∈ nullable
      · have hcons : ∀ form, corners nullable (.nonterminal m :: form) =
            m :: corners nullable form := fun form ↦ by rw [corners, if_pos hm]
        have hfirst : isNullable nullable (.nonterminal m) = true :=
          isNullable_iff.mpr ⟨m, rfl, hm⟩
        rw [hcons, hcons, List.mem_cons, List.mem_cons, ih, List.forall_mem_cons, or_assoc]
        simp only [hfirst, true_and]
      · simp [corners, hm, isNullable_iff]

/-- A nonterminal is at the front of a form when all tokens before it are nullable. -/
theorem mem_corners_iff {nullable : OrderedSet String} {form : Body} {name : String} :
    name ∈ corners nullable form ↔ ∃ before after, form = before ++ .nonterminal name :: after ∧
      ∀ t ∈ before, isNullable nullable t = true := by
  constructor
  · intro h
    induction form with
    | nil => cases h
    | cons t form ih =>
      cases t with
      | terminal c => cases h
      | nonterminal m =>
        unfold corners at h
        split at h
        · next hm =>
          rcases List.mem_cons.mp h with rfl | h
          · exact ⟨[], form, rfl, by simp⟩
          · obtain ⟨before, after, rfl, hbefore⟩ := ih h
            refine ⟨.nonterminal m :: before, after, rfl, List.forall_mem_cons.mpr ⟨?_, hbefore⟩⟩
            exact isNullable_iff.mpr ⟨m, rfl, hm⟩
        · rw [List.mem_singleton.mp h]
          exact ⟨[], form, rfl, by simp⟩
  · rintro ⟨before, after, rfl, hbefore⟩
    refine mem_corners_append_iff.mpr (Or.inr ⟨hbefore, ?_⟩)
    rw [corners]
    split <;> simp

/-- After a step a form begins with what it began with, or with corners of such a nonterminal. -/
theorem Step.mem_corners {g : Grammar} {form next : Body} (h : g.Step form next) {name : String}
    (hn : name ∈ corners g.nullable next) :
    name ∈ corners g.nullable form ∨
      ∃ m ∈ corners g.nullable form, name ∈ g.directCorners g.nullable m := by
  cases h with
  | @replace before after head body hb =>
    rw [List.append_assoc, mem_corners_append_iff] at hn
    rcases hn with hn | ⟨hbefore, hn⟩
    · exact Or.inl (mem_corners_append_iff.mpr (Or.inl hn))
    · have hfront : ∀ m, m ∈ corners g.nullable (.nonterminal head :: after) →
          m ∈ corners g.nullable (before ++ .nonterminal head :: after) :=
        fun m hm ↦ mem_corners_append_iff.mpr (Or.inr ⟨hbefore, hm⟩)
      rcases mem_corners_append_iff.mp hn with hn | ⟨hbody, hn⟩
      · refine Or.inr ⟨head, hfront head ?_, List.mem_flatMap.mpr ⟨body, hb, hn⟩⟩
        rw [corners]
        split <;> simp
      · -- The body is nullable, and then so is its head: what follows was in front before.
        have hhead : head ∈ g.nullable :=
          OrderedSet.expand_closure_subset _ (g.bounded_headsWith isNullable) _ _
            (mem_headsWith.mpr ⟨body, hb, hbody⟩)
        refine Or.inl (hfront name ?_)
        rw [corners, if_pos hhead]
        exact List.mem_cons_of_mem _ hn

/-- A form begins with left corners of what it was derived from. -/
theorem Derives.exists_corner {g : Grammar} {form last : Body} (h : g.Derives form last)
    {name : String} (hn : name ∈ corners g.nullable last) :
    ∃ m ∈ corners g.nullable form,
      Relation.ReflTransGen (fun a b ↦ b ∈ g.directCorners g.nullable a) m name := by
  induction h with
  | refl => exact ⟨name, hn, .refl⟩
  | step hs _ ih =>
    obtain ⟨m, hm, hchain⟩ := ih hn
    rcases hs.mem_corners hm with hm | ⟨k, hk, hm⟩
    · exact ⟨m, hm, hchain⟩
    · exact ⟨k, hk, .head hm hchain⟩

/-- A step from a nonterminal by itself leads to one of its bodies. -/
theorem step_single_iff {g : Grammar} {name : String} {next : Body} :
    g.Step [.nonterminal name] next ↔ next ∈ g.bodies name := by
  constructor
  · intro h
    generalize hf : [Token.nonterminal name] = front at h
    cases h with
    | @replace before after head body hb =>
      have hnil : before = [] ∧ after = [] ∧ head = name := by
        cases before with
        | nil => simpa [eq_comm, and_comm] using hf
        | cons t before => simp at hf
      obtain ⟨rfl, rfl, rfl⟩ := hnil
      rwa [List.nil_append, List.append_nil]
  · intro h
    simpa using Step.replace [] [] h

/-- A nonterminal with which a form begins that a nonterminal derives in one or more steps is a
left corner of it. -/
theorem mem_leftCorners_of_derives {g : Grammar} {name corner : String} {next form : Body}
    (hs : g.Step [.nonterminal name] next) (hd : g.Derives next (.nonterminal corner :: form)) :
    corner ∈ g.leftCorners name := by
  have hcorner : corner ∈ corners g.nullable (.nonterminal corner :: form) :=
    mem_corners_iff.mpr ⟨[], form, rfl, by simp⟩
  obtain ⟨m, hm, hchain⟩ := hd.exists_corner hcorner
  have hfirst : m ∈ g.directCorners g.nullable name :=
    List.mem_flatMap.mpr ⟨next, step_single_iff.mp hs, hm⟩
  exact mem_leftCorners_iff.mpr (.head' hfirst hchain)

/-- Tokens that are nullable derive the empty form. -/
theorem derives_nil_of_isNullable {g : Grammar} {form : Body}
    (h : ∀ t ∈ form, isNullable g.nullable t = true) : g.Derives form [] := by
  refine (derives_iff_yields (w := [])).mpr (Productions.yields_iff_spells.mpr ?_)
  refine Spells.empty_iff.mpr fun t ht ↦ ?_
  obtain ⟨name, he, hname⟩ := isNullable_iff.mp (h t ht)
  exact ⟨name, he, mem_nullable_iff.mp hname⟩

/-- A nonterminal derives a form that begins with a corner of one of its bodies: what stands before
the corner is erased. -/
theorem exists_derives_of_mem_directCorners {g : Grammar} {name corner : String}
    (h : corner ∈ g.directCorners g.nullable name) :
    ∃ next rest, g.Step [.nonterminal name] next ∧
      g.Derives next (.nonterminal corner :: rest) := by
  obtain ⟨body, hb, hcorner⟩ := List.mem_flatMap.mp h
  obtain ⟨before, after, rfl, hbefore⟩ := mem_corners_iff.mp hcorner
  have herase := (derives_nil_of_isNullable hbefore).append [] (.nonterminal corner :: after)
  exact ⟨_, after, step_single_iff.mpr hb, herase⟩

/-- The left corners of a nonterminal are those with which forms begin that it derives in one or
more steps. -/
theorem mem_leftCorners_iff_derives {g : Grammar} {name corner : String} :
    corner ∈ g.leftCorners name ↔ ∃ next rest, g.Step [.nonterminal name] next ∧
      g.Derives next (.nonterminal corner :: rest) := by
  constructor
  · intro h
    have hchain := mem_leftCorners_iff.mp h
    clear h
    induction hchain with
    | single h => exact exists_derives_of_mem_directCorners h
    | @tail middle corner _ h ih =>
      obtain ⟨next, rest, hstep, hnext⟩ := ih
      obtain ⟨body, after, hbody, hafter⟩ := exists_derives_of_mem_directCorners h
      have hmiddle : g.Derives (.nonterminal middle :: rest)
          (.nonterminal corner :: after ++ rest) := (Derives.step hbody hafter).append [] rest
      exact ⟨next, after ++ rest, hstep, hnext.trans hmiddle⟩
  · rintro ⟨next, rest, hstep, hnext⟩
    exact mem_leftCorners_of_derives hstep hnext

/-- A grammar is left recursive when some nonterminal derives, in one or more steps, a form that
begins with itself. -/
theorem isLeftRecursive_iff_derives {g : Grammar} :
    g.isLeftRecursive = true ↔ ∃ name ∈ g.nonterminals, ∃ next rest,
      g.Step [.nonterminal name] next ∧ g.Derives next (.nonterminal name :: rest) := by
  rw [isLeftRecursive_iff]
  simp only [mem_leftCorners_iff_derives]

/-- Without left recursion no nonterminal derives a form that begins with itself. -/
theorem not_derives_of_isLeftRecursive_eq_false {g : Grammar} (h : g.isLeftRecursive = false)
    {name : String} {next form : Body} (hs : g.Step [.nonterminal name] next) :
    ¬ g.Derives next (.nonterminal name :: form) := by
  intro hd
  have hkey := Productions.mem_keys_of_mem_bodies (step_single_iff.mp hs)
  have htrue := isLeftRecursive_iff_derives.mpr ⟨name, hkey, next, form, hs, hd⟩
  rw [h] at htrue
  cases htrue

/-- The left corners of a nonterminal are exactly the nonterminals with which forms begin that it
derives in one or more steps, also behind a front that derives the empty word, and so a grammar is
left recursive exactly when some nonterminal derives a form that begins with itself. -/
theorem leftCorners_and_isLeftRecursive_iff_derives (g : Grammar) :
    (∀ name corner, corner ∈ g.leftCorners name ↔ ∃ next rest,
      g.Step [.nonterminal name] next ∧ g.Derives next (.nonterminal corner :: rest)) ∧
    (g.isLeftRecursive = true ↔ ∃ name ∈ g.nonterminals, ∃ next rest,
      g.Step [.nonterminal name] next ∧ g.Derives next (.nonterminal name :: rest)) :=
  ⟨fun _ _ ↦ mem_leftCorners_iff_derives, isLeftRecursive_iff_derives⟩

end LanguageTheory.Grammar
