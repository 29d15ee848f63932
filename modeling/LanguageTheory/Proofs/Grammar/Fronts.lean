import LanguageTheory.Grammar.LeftRecursion
import LanguageTheory.Proofs.Grammar.Yield

/-!
# Changing the fronts of bodies

A nonterminal at the front of a body may be replaced by its own bodies, and a nonterminal that
begins its own bodies may be repeated at their end instead. Neither changes the words of a
nonterminal that was there before.
-/

namespace LanguageTheory.Grammar

/-- A body begins with a nonterminal when the nonterminal is its first token. -/
theorem leading?_eq_some_iff {body : Body} {name : String} :
    leading? body = some name ↔ ∃ rest, body = .nonterminal name :: rest := by
  constructor
  · intro h
    unfold leading? at h
    split at h
    · cases h
      exact ⟨_, rfl⟩
    · cases h
  · rintro ⟨rest, rfl⟩
    rfl

namespace Productions

/-- Some body of one nonterminal begins with another. -/
def Leads (p : Productions) (name front : String) : Prop :=
  ∃ body ∈ p.bodies name, leading? body = some front

/-- What begins a body is used. -/
theorem Leads.uses {p : Productions} {name front : String} (h : p.Leads name front) :
    p.Uses (.nonterminal front) := by
  obtain ⟨body, hb, hl⟩ := h
  obtain ⟨rest, rfl⟩ := leading?_eq_some_iff.mp hl
  exact .of_mem hb (by simp)

/-- What has a body is a nonterminal. -/
theorem Leads.mem_keys {p : Productions} {name front : String} (h : p.Leads name front) :
    name ∈ p.keys := by
  obtain ⟨body, hb, _⟩ := h
  exact mem_keys_of_mem_bodies hb

/-- Fronts that have later places than the nonterminals whose bodies they begin are on no cycle. -/
theorem not_transGen_leads_of_lt {p : Productions} (place : String → Nat)
    (h : ∀ name front, p.Leads name front → place name < place front) (name : String) :
    ¬ Relation.TransGen p.Leads name name := by
  have hlt : ∀ {a b}, Relation.TransGen p.Leads a b → place a < place b := by
    intro a b hab
    induction hab with
    | single hl => exact h _ _ hl
    | tail _ hl ih => exact Nat.lt_trans ih (h _ _ hl)
  intro hn
  exact Nat.lt_irrefl _ (hlt hn)

/-- No nonterminal that is used has the empty body. -/
def Solid (p : Productions) : Prop :=
  ∀ name, p.Uses (.nonterminal name) → [] ∉ p.bodies name

/-- A form of used tokens is not longer than what it yields. -/
theorem Solid.length_le {p : Productions} (h : p.Solid) {form : Body} {w : List Char}
    (hw : p.Yields form w) (huses : ∀ t ∈ form, p.Uses t) : form.length ≤ w.length := by
  induction hw with
  | nil => exact Nat.le_refl _
  | terminal c _ ih =>
    have hle := ih fun t ht ↦ huses t (List.mem_cons_of_mem _ ht)
    simp only [List.length_cons]
    omega
  | @nonterminal name body form u v hb _ _ ihu ihv =>
    have hleu := ihu fun t ht ↦ .of_mem hb ht
    have hlev := ihv fun t ht ↦ huses t (List.mem_cons_of_mem _ ht)
    have hpos : 0 < body.length := by
      rw [List.length_pos_iff]
      rintro rfl
      exact h name (huses _ List.mem_cons_self) hb
    simp only [List.length_cons, List.length_append]
    omega

/-- What the changes of fronts keep: the words of the given nonterminals, and that there are no
further terminals and no further empty bodies. -/
structure Rewrites (names : List String) (p q : Productions) : Prop where
  language : ∀ name ∈ names, ∀ w, q.Language name w ↔ p.Language name w
  terminals : ∀ c, q.Uses (.terminal c) → p.Uses (.terminal c)
  empty : ∀ name, [] ∈ q.bodies name → [] ∈ p.bodies name

/-- Nothing is changed. -/
theorem Rewrites.refl (names : List String) (p : Productions) : Rewrites names p p :=
  ⟨fun _ _ _ ↦ Iff.rfl, fun _ h ↦ h, fun _ h ↦ h⟩

/-- One change after another. -/
theorem Rewrites.trans {names : List String} {p q r : Productions} (h : Rewrites names p q)
    (h' : Rewrites names q r) : Rewrites names p r := by
  constructor
  · intro name hn w
    rw [h'.language name hn, h.language name hn]
  · intro c hc
    exact h.terminals c (h'.terminals c hc)
  · intro name hb
    exact h.empty name (h'.empty name hb)

/-! ### A nonterminal replaced by its bodies -/

/-- Only the bodies of the head are changed. -/
theorem bodies_inlineFront_of_ne {p : Productions} {head name other : String}
    (h : other ≠ head) : (p.inlineFront head name).bodies other = p.bodies other := by
  unfold inlineFront
  split
  · split
    · rw [bodies_insert, if_neg h]
    · rfl
  · rfl

/-- A list of bodies in which each body with the given front is replaced. -/
theorem mem_flatMap_inlined {name : String} {bodies replacements : List Body} {body : Body} :
    body ∈ bodies.flatMap (fun old ↦
        if leading? old = some name then replacements.map fun r ↦ r ++ old.tail else [old]) ↔
      body ∈ bodies ∧ leading? body ≠ some name ∨
        ∃ rest, .nonterminal name :: rest ∈ bodies ∧ ∃ r ∈ replacements, body = r ++ rest := by
  rw [List.mem_flatMap]
  constructor
  · rintro ⟨old, hold, hbody⟩
    split at hbody
    · next hl =>
      obtain ⟨rest, rfl⟩ := leading?_eq_some_iff.mp hl
      obtain ⟨r, hr, he⟩ := List.mem_map.mp hbody
      exact Or.inr ⟨rest, hold, r, hr, he.symm⟩
    · next hl =>
      rw [List.mem_singleton.mp hbody]
      exact Or.inl ⟨hold, hl⟩
  · rintro (⟨hold, hl⟩ | ⟨rest, hold, r, hr, rfl⟩)
    · refine ⟨body, hold, ?_⟩
      rw [if_neg hl]
      exact List.mem_singleton.mpr rfl
    · refine ⟨.nonterminal name :: rest, hold, ?_⟩
      rw [if_pos (leading?_eq_some_iff.mpr ⟨rest, rfl⟩)]
      exact List.mem_map.mpr ⟨r, hr, rfl⟩

/-- The bodies of the head keep another front, and get all bodies of the nonterminal in its
place. -/
theorem mem_bodies_inlineFront_self {p : Productions} {head name : String} {body : Body}
    (hname : name ∈ p.keys) :
    body ∈ (p.inlineFront head name).bodies head ↔
      body ∈ p.bodies head ∧ leading? body ≠ some name ∨
        ∃ rest, .nonterminal name :: rest ∈ p.bodies head ∧
          ∃ r ∈ p.bodies name, body = r ++ rest := by
  obtain ⟨replacements, hr⟩ := Table.mem_keys_iff.mp hname
  unfold inlineFront
  cases hb : p.get? head with
  | none =>
    have hnone : p.bodies head = [] := bodies_of_notMem (Table.get?_eq_none_iff.mp hb)
    simp [hnone]
  | some bodies =>
    simp only [hr]
    rw [bodies_of_get? hb, bodies_of_get? hr]
    split
    · rw [bodies_insert, if_pos rfl, OrderedSet.mem_toList, OrderedSet.mem_ofList,
        mem_flatMap_inlined]
    · next hany =>
      -- The table is left alone where no body has the front.
      have hnone : ∀ old ∈ bodies.toList, leading? old ≠ some name := by
        intro old hold hl
        exact hany (List.any_eq_true.mpr ⟨old, hold, decide_eq_true hl⟩)
      rw [bodies_of_get? hb]
      constructor
      · intro h
        exact Or.inl ⟨h, hnone body h⟩
      · rintro (⟨h, _⟩ | ⟨rest, h, _⟩)
        · exact h
        · exact absurd rfl (hnone _ h)

/-- The nonterminals stay the same. -/
theorem keys_inlineFront (p : Productions) (head name : String) :
    Table.keys (p.inlineFront head name) = p.keys := by
  unfold inlineFront
  split
  · next hb _ =>
    split
    · exact Table.keys_insert_of_mem _ (Table.mem_keys_iff.mpr ⟨_, hb⟩)
    · rfl
  · rfl

/-- Replacing the front of bodies uses no other tokens. -/
theorem uses_of_uses_inlineFront {p : Productions} {head name : String} {t : Token}
    (hname : name ∈ p.keys) (h : (p.inlineFront head name).Uses t) : p.Uses t := by
  obtain ⟨n, body, hb, ht⟩ := h
  by_cases hn : n = head
  · subst hn
    rcases (mem_bodies_inlineFront_self hname).mp hb with ⟨hb, _⟩ | ⟨rest, hrest, r, hr, rfl⟩
    · exact .of_mem hb ht
    · rcases List.mem_append.mp ht with ht | ht
      · exact .of_mem hr ht
      · exact .of_mem hrest (List.mem_cons_of_mem _ ht)
  · rw [bodies_inlineFront_of_ne hn] at hb
    exact .of_mem hb ht

/-- Replacing the front of bodies keeps productions closed. -/
theorem Closed.inlineFront {p : Productions} (h : p.Closed) {head name : String}
    (hname : name ∈ p.keys) : (p.inlineFront head name).Closed := by
  intro other hu
  rw [keys_inlineFront]
  exact h other (uses_of_uses_inlineFront hname hu)

/-- What may begin the bodies of the head after a replacement at the front. -/
theorem Solid.leads_inlineFront {p : Productions} (h : p.Solid) {head name front : String}
    (hname : name ∈ p.keys) (hl : (p.inlineFront head name).Leads head front) :
    p.Leads head front ∧ front ≠ name ∨ p.Leads head name ∧ p.Leads name front := by
  obtain ⟨body, hb, hl⟩ := hl
  rcases (mem_bodies_inlineFront_self hname).mp hb with ⟨hb, hne⟩ | ⟨rest, hrest, r, hr, rfl⟩
  · refine Or.inl ⟨⟨body, hb, hl⟩, ?_⟩
    rintro rfl
    exact hne hl
  · cases r with
    | nil => exact absurd hr (h name (.of_mem hrest (by simp)))
    | cons t r =>
      refine Or.inr ⟨⟨_, hrest, rfl⟩, t :: r, hr, ?_⟩
      cases t with
      | terminal c => cases hl
      | nonterminal m => exact hl

/-- A replacement at the front of bodies gives no further empty body. -/
theorem Solid.nil_mem_of_inlineFront {p : Productions} (h : p.Solid) {head name other : String}
    (hname : name ∈ p.keys) (hb : [] ∈ (p.inlineFront head name).bodies other) :
    [] ∈ p.bodies other := by
  by_cases ho : other = head
  · subst ho
    rcases (mem_bodies_inlineFront_self hname).mp hb with ⟨hb, _⟩ | ⟨rest, hrest, r, hr, he⟩
    · exact hb
    · obtain ⟨rfl, _⟩ := List.append_eq_nil_iff.mp he.symm
      exact absurd hr (h name (.of_mem hrest (by simp)))
  · rwa [bodies_inlineFront_of_ne ho] at hb

/-- A replacement at the front of bodies gives no empty body to a nonterminal that is used. -/
theorem Solid.inlineFront {p : Productions} (h : p.Solid) {head name : String}
    (hname : name ∈ p.keys) : (p.inlineFront head name).Solid := by
  intro other hu hb
  exact h other (uses_of_uses_inlineFront hname hu) (h.nil_mem_of_inlineFront hname hb)

/-- Replacing another nonterminal at the front of bodies changes no word. -/
theorem language_inlineFront_iff {p : Productions} {head name other : String} {w : List Char}
    (hname : name ∈ p.keys) (hne : name ≠ head) :
    (p.inlineFront head name).Language other w ↔ p.Language other w := by
  constructor
  · intro h
    refine language_induction ?_ h
    intro n body hb v hv
    by_cases hn : n = head
    · subst hn
      rcases (mem_bodies_inlineFront_self hname).mp hb with ⟨hb, _⟩ | ⟨rest, hrest, r, hr, rfl⟩
      · exact language_of_spells hb hv
      · obtain ⟨x, y, rfl, hx, hy⟩ := Spells.append_iff.mp hv
        exact language_of_spells hrest (.nonterminal (language_of_spells hr hx) hy)
    · rw [bodies_inlineFront_of_ne hn] at hb
      exact language_of_spells hb hv
  · intro h
    refine language_induction ?_ h
    intro n body hb v hv
    by_cases hn : n = head
    · subst hn
      by_cases hl : leading? body = some name
      · obtain ⟨rest, rfl⟩ := leading?_eq_some_iff.mp hl
        obtain ⟨x, y, rfl, hx, hy⟩ := Spells.nonterminal_iff.mp hv
        obtain ⟨r, hr, hx⟩ := language_iff.mp hx
        rw [bodies_inlineFront_of_ne hne] at hr
        have hnew := (mem_bodies_inlineFront_self hname).mpr (Or.inr ⟨rest, hb, r, hr, rfl⟩)
        exact language_of_spells hnew (hx.append hy)
      · have hkept := (mem_bodies_inlineFront_self hname).mpr (Or.inl ⟨hb, hl⟩)
        exact language_of_spells hkept hv
    · have hkept : body ∈ (p.inlineFront head name).bodies n := by
        rw [bodies_inlineFront_of_ne hn]
        exact hb
      exact language_of_spells hkept hv

/-- Nothing is replaced by the bodies of a name that is no nonterminal. -/
theorem inlineFront_of_notMem {p : Productions} {head name : String} (hname : name ∉ p.keys) :
    p.inlineFront head name = p := by
  unfold inlineFront
  rw [Table.get?_eq_none_iff.mpr hname]
  cases p.get? head <;> rfl

/-- In closed productions the bodies of the head that begin with any name get all its bodies in its
place, and the other bodies are kept. -/
theorem Closed.mem_bodies_inlineFront_iff {p : Productions} (h : p.Closed) {head name : String}
    {body : Body} :
    body ∈ (p.inlineFront head name).bodies head ↔
      body ∈ p.bodies head ∧ leading? body ≠ some name ∨
        ∃ rest, .nonterminal name :: rest ∈ p.bodies head ∧
          ∃ r ∈ p.bodies name, body = r ++ rest := by
  by_cases hname : name ∈ p.keys
  · exact mem_bodies_inlineFront_self hname
  · have hfront : ∀ rest, .nonterminal name :: rest ∉ p.bodies head :=
      fun rest hrest ↦ hname (h name (.of_mem hrest List.mem_cons_self))
    rw [inlineFront_of_notMem hname]
    constructor
    · intro hb
      refine Or.inl ⟨hb, fun hl ↦ ?_⟩
      obtain ⟨rest, rfl⟩ := leading?_eq_some_iff.mp hl
      exact hfront rest hb
    · rintro (⟨hb, _⟩ | ⟨rest, hrest, _⟩)
      · exact hb
      · exact absurd hrest (hfront rest)

/-- What a replacement of another nonterminal at the front of bodies keeps. -/
theorem Solid.rewrites_inlineFront {p : Productions} (h : p.Solid) {head name : String}
    (hname : name ∈ p.keys) (hne : name ≠ head) (names : List String) :
    Rewrites names p (p.inlineFront head name) where
  language _ _ _ := language_inlineFront_iff hname hne
  terminals _ hc := uses_of_uses_inlineFront hname hc
  empty _ hb := h.nil_mem_of_inlineFront hname hb

/-! ### Repetition at the end -/

/-- What repetition at the end makes of the bodies that begin with their own head: a new
nonterminal `tail` repeats what follows the head in them, and it may stand behind each other
body. -/
structure RepeatsAtEnd (p : Productions) (head tail : String) (q : Productions) : Prop where
  fresh : tail ∉ p.keys
  mem_keys : ∀ {name}, name ∈ q.keys ↔ name ∈ p.keys ∨ name = tail
  head_bodies : ∀ {body}, body ∈ q.bodies head ↔
    ∃ other ∈ p.bodies head, leading? other ≠ some head ∧
      (body = other ∨ body = other ++ [.nonterminal tail])
  tail_bodies : ∀ {body}, body ∈ q.bodies tail ↔
    ∃ rest, .nonterminal head :: rest ∈ p.bodies head ∧
      (body = rest ∨ body = rest ++ [.nonterminal tail])
  other_bodies : ∀ {name}, name ≠ head → name ≠ tail → q.bodies name = p.bodies name

/-- A nonterminal that begins none of its bodies keeps them. -/
theorem recurseAtEnd_eq_self {p : Productions} {head : String}
    (h : ∀ body ∈ p.bodies head, leading? body ≠ some head) : p.recurseAtEnd head = p := by
  unfold recurseAtEnd
  cases hb : p.get? head with
  | none => rfl
  | some bodies =>
    rw [bodies_of_get? hb] at h
    have hempty : bodies.toList.filter (fun body ↦ leading? body = some head) = [] := by
      rw [List.filter_eq_nil_iff]
      intro body hbody
      simpa using h body hbody
    simp only [hempty, List.isEmpty_nil, if_true]

/-- A nonterminal that begins one of its bodies gets other bodies, and a new nonterminal is made. -/
theorem recurseAtEnd_of_mem {p : Productions} {head : String} {bodies : OrderedSet Body}
    {first : Body} (hb : p.get? head = some bodies) (hfirst : first ∈ bodies)
    (hl : leading? first = some head) :
    p.recurseAtEnd head =
      let tail := freshName (head ++ "'") p.keys
      let repeated (body : Body) : List Body := [body, body ++ [.nonterminal tail]]
      (p.insert head (OrderedSet.ofList ((bodies.toList.filter
        fun body ↦ leading? body ≠ some head).flatMap repeated))).insert tail
          (OrderedSet.ofList ((bodies.toList.filter
            fun body ↦ leading? body = some head).flatMap fun body ↦ repeated body.tail)) := by
  have hne : (bodies.toList.filter fun body ↦ leading? body = some head).isEmpty = false := by
    apply Bool.eq_false_iff.mpr
    intro he
    have hnil := List.filter_eq_nil_iff.mp (List.isEmpty_iff.mp he) first hfirst
    exact hnil (decide_eq_true hl)
  simp only [recurseAtEnd, hb, hne, Bool.false_eq_true, if_false]

/-- A nonterminal that begins one of its bodies is repeated at the end. -/
theorem repeatsAtEnd_recurseAtEnd {p : Productions} {head : String} {first : Body}
    (hfirst : first ∈ p.bodies head) (hl : leading? first = some head) :
    ∃ tail, p.RepeatsAtEnd head tail (p.recurseAtEnd head) := by
  obtain ⟨bodies, hb, hfirst⟩ := mem_bodies_iff.mp hfirst
  have hkey : head ∈ p.keys := Table.mem_keys_iff.mpr ⟨bodies, hb⟩
  have hfresh : freshName (head ++ "'") p.keys ∉ p.keys := freshName_notMem _ _
  have hdistinct : head ≠ freshName (head ++ "'") p.keys := by
    intro he
    rw [← he] at hfresh
    exact hfresh hkey
  rw [recurseAtEnd_of_mem hb hfirst hl]
  refine ⟨freshName (head ++ "'") p.keys, hfresh, ?_, ?_, ?_, ?_⟩
  · intro name
    rw [Table.mem_keys_insert, Table.mem_keys_insert]
    constructor
    · rintro ((h | rfl) | h)
      · exact Or.inl h
      · exact Or.inl hkey
      · exact Or.inr h
    · rintro (h | h)
      · exact Or.inl (Or.inl h)
      · exact Or.inr h
  · intro body
    rw [bodies_insert, if_neg hdistinct, bodies_insert, if_pos rfl, bodies_of_get? hb]
    simp [and_assoc]
  · intro body
    rw [bodies_insert, if_pos rfl, bodies_of_get? hb]
    simp only [OrderedSet.mem_toList, OrderedSet.mem_ofList, List.mem_flatMap, List.mem_filter,
      decide_eq_true_eq]
    constructor
    · rintro ⟨old, ⟨hold, hl⟩, hbody⟩
      obtain ⟨rest, rfl⟩ := leading?_eq_some_iff.mp hl
      exact ⟨rest, hold, by simpa using hbody⟩
    · rintro ⟨rest, hold, hbody⟩
      exact ⟨.nonterminal head :: rest, ⟨hold, rfl⟩, by simpa using hbody⟩
  · intro name hnhead hntail
    rw [bodies_insert, if_neg hntail, bodies_insert, if_neg hnhead]

/-- Either no body of a nonterminal begins with it, and nothing is changed, or it is repeated at the
end. -/
theorem recurseAtEnd_cases (p : Productions) (head : String) :
    ¬ p.Leads head head ∧ p.recurseAtEnd head = p ∨
      p.Leads head head ∧ ∃ tail, p.RepeatsAtEnd head tail (p.recurseAtEnd head) := by
  by_cases hself : p.Leads head head
  · have ⟨_, hfirst, hl⟩ := hself
    exact Or.inr ⟨hself, repeatsAtEnd_recurseAtEnd hfirst hl⟩
  · exact Or.inl ⟨hself, recurseAtEnd_eq_self fun body hb hl ↦ hself ⟨body, hb, hl⟩⟩

namespace RepeatsAtEnd

/-- The old words of a nonterminal; the new one has what may stand behind all words of the head. -/
def oldWords (p : Productions) (head tail name : String) (w : List Char) : Prop :=
  if name = tail then ∀ u, p.Language head u → p.Language head (u ++ w) else p.Language name w

variable {p q : Productions} {head tail : String}

/-- No body of closed productions has the new nonterminal. -/
theorem ne_tail (h : p.RepeatsAtEnd head tail q) (hclosed : p.Closed) {name other : String}
    {body : Body} (hb : body ∈ p.bodies name) (ho : .nonterminal other ∈ body) : other ≠ tail := by
  rintro rfl
  exact h.fresh (hclosed other (.of_mem hb ho))

/-- The other nonterminals have the fronts that they had. -/
theorem leads_of_ne (h : p.RepeatsAtEnd head tail q) {name front : String} (hhead : name ≠ head)
    (htail : name ≠ tail) (hl : q.Leads name front) : p.Leads name front := by
  unfold Leads at hl
  rwa [h.other_bodies hhead htail] at hl

/-- No tokens but the new nonterminal are used in addition. -/
theorem uses_of_uses (h : p.RepeatsAtEnd head tail q) {t : Token} (ht : q.Uses t) :
    p.Uses t ∨ t = .nonterminal tail := by
  have hpart : ∀ {name : String} {old rest body : Body}, old ∈ p.bodies name → rest ⊆ old →
      (body = rest ∨ body = rest ++ [.nonterminal tail]) → t ∈ body →
        p.Uses t ∨ t = .nonterminal tail := by
    rintro name old rest body hold hsub (rfl | rfl) hm
    · exact Or.inl (.of_mem hold (hsub hm))
    · rcases List.mem_append.mp hm with hm | hm
      · exact Or.inl (.of_mem hold (hsub hm))
      · exact Or.inr (List.mem_singleton.mp hm)
  obtain ⟨name, body, hb, hm⟩ := ht
  by_cases hn : name = tail
  · subst hn
    obtain ⟨rest, hrest, he⟩ := h.tail_bodies.mp hb
    exact hpart hrest (by simp) he hm
  · by_cases hhead : name = head
    · subst hhead
      obtain ⟨other, hother, _, he⟩ := h.head_bodies.mp hb
      exact hpart hother (by simp) he hm
    · rw [h.other_bodies hhead hn] at hb
      exact Or.inl (.of_mem hb hm)

/-- Repetition at the end gives no further empty body, unless the head is a body of itself. -/
theorem nil_mem_of_nil_mem (h : p.RepeatsAtEnd head tail q)
    (hunit : [.nonterminal head] ∉ p.bodies head) {name : String} (hb : [] ∈ q.bodies name) :
    [] ∈ p.bodies name := by
  by_cases hn : name = tail
  · subst hn
    obtain ⟨rest, hrest, rfl | he⟩ := h.tail_bodies.mp hb
    · exact absurd hrest hunit
    · simp at he
  · by_cases hhead : name = head
    · subst hhead
      obtain ⟨other, hother, _, rfl | he⟩ := h.head_bodies.mp hb
      · exact hother
      · simp at he
    · rwa [h.other_bodies hhead hn] at hb

/-- Repetition at the end gives no empty body to a nonterminal that is used, unless the head is a
body of itself. -/
theorem solid (h : p.RepeatsAtEnd head tail q) (hsolid : p.Solid)
    (hunit : [.nonterminal head] ∉ p.bodies head) : q.Solid := by
  intro name hu hb
  have hold := h.nil_mem_of_nil_mem hunit hb
  cases h.uses_of_uses hu with
  | inl hu => exact hsolid name hu hold
  | inr he =>
    cases he
    exact h.fresh (mem_keys_of_mem_bodies hold)

/-- Repetition at the end keeps productions closed. -/
theorem closed (h : p.RepeatsAtEnd head tail q) (hclosed : p.Closed) : q.Closed := by
  intro name hu
  rw [h.mem_keys]
  cases h.uses_of_uses hu with
  | inl hu => exact Or.inl (hclosed name hu)
  | inr he =>
    cases he
    exact Or.inr rfl

/-- After repetition at the end a body of the head begins with an old front other than the head, or
with the new nonterminal where the head had the empty body. -/
theorem leads_head_cases (h : p.RepeatsAtEnd head tail q) {front : String}
    (hl : q.Leads head front) :
    p.Leads head front ∧ front ≠ head ∨ front = tail ∧ [] ∈ p.bodies head := by
  obtain ⟨body, hb, hl⟩ := hl
  obtain ⟨other, hother, hne, he⟩ := h.head_bodies.mp hb
  cases other with
  | nil =>
    rcases he with rfl | rfl
    · cases hl
    · exact Or.inr ⟨(Option.some.inj hl).symm, hother⟩
  | cons t rest =>
    have hfront : leading? (t :: rest) = some front := by
      rcases he with rfl | rfl
      · exact hl
      · cases t <;> exact hl
    refine Or.inl ⟨⟨t :: rest, hother, hfront⟩, ?_⟩
    rintro rfl
    exact hne hfront

/-- After repetition at the end no body of the head begins with the head. -/
theorem not_leads_head (h : p.RepeatsAtEnd head tail q) (hhead : head ∈ p.keys) :
    ¬ q.Leads head head := by
  intro hl
  rcases h.leads_head_cases hl with ⟨_, hne⟩ | ⟨rfl, _⟩
  · exact hne rfl
  · exact h.fresh hhead

/-- What the new nonterminal repeats may stand at the end of its words. -/
theorem language_tail_append (h : p.RepeatsAtEnd head tail q) {rest : Body} {u v : List Char}
    (hrest : .nonterminal head :: rest ∈ p.bodies head) (hv : Spells q.Language rest v)
    (hu : q.Language tail u) : q.Language tail (u ++ v) := by
  -- The new nonterminal is on the right of its own bodies: what comes last goes in at the end of
  -- the innermost word.
  refine language_induction_of_words
    (motive := fun n x ↦ n = tail → q.Language tail (x ++ v)) ?_ hu rfl
  intro n body hb x hx hn
  subst hn
  have hwords : ∀ {form y}, Spells (fun m z ↦ q.Language m z ∧
      (m = n → q.Language n (z ++ v))) form y → Spells q.Language form y :=
    fun hy ↦ hy.mono fun _ _ _ hw ↦ hw.1
  have hlast : q.Language n v := language_of_spells (h.tail_bodies.mpr ⟨rest, hrest, .inl rfl⟩) hv
  obtain ⟨old, hold, rfl | rfl⟩ := h.tail_bodies.mp hb
  · have hnew := h.tail_bodies.mpr ⟨_, hold, .inr rfl⟩
    exact language_of_spells hnew ((hwords hx).append (Spells.single_iff.mpr hlast))
  · obtain ⟨y, z, rfl, hy, hz⟩ := Spells.append_iff.mp hx
    have hz := (Spells.single_iff.mp hz).2 rfl
    rw [List.append_assoc]
    exact language_of_spells hb ((hwords hy).append (Spells.single_iff.mpr hz))

/-- What the new nonterminal repeats may stand at the end of the words of the head. -/
theorem language_head_append (h : p.RepeatsAtEnd head tail q) {rest : Body} {u v : List Char}
    (hrest : .nonterminal head :: rest ∈ p.bodies head) (hv : Spells q.Language rest v)
    (hu : q.Language head u) : q.Language head (u ++ v) := by
  obtain ⟨body, hb, hx⟩ := language_iff.mp hu
  obtain ⟨other, hother, hl, he⟩ := h.head_bodies.mp hb
  have hlong := h.head_bodies.mpr ⟨other, hother, hl, .inr rfl⟩
  cases he with
  | inl he =>
    subst he
    have hlast : q.Language tail v :=
      language_of_spells (h.tail_bodies.mpr ⟨rest, hrest, .inl rfl⟩) hv
    exact language_of_spells hlong (hx.append (Spells.single_iff.mpr hlast))
  | inr he =>
    subst he
    obtain ⟨x, y, rfl, hx, hy⟩ := Spells.append_iff.mp hx
    have hy := h.language_tail_append hrest hv (Spells.single_iff.mp hy)
    rw [List.append_assoc]
    exact language_of_spells hlong (hx.append (Spells.single_iff.mpr hy))

/-- Words of the old productions are words of the new ones. -/
theorem language_of_language (h : p.RepeatsAtEnd head tail q) {name : String} {w : List Char}
    (hw : p.Language name w) : q.Language name w := by
  refine language_induction ?_ hw
  intro n body hb v hv
  have hn : n ≠ tail := by
    rintro rfl
    exact h.fresh (mem_keys_of_mem_bodies hb)
  by_cases hhead : n = head
  · subst hhead
    by_cases hl : leading? body = some n
    · obtain ⟨rest, rfl⟩ := leading?_eq_some_iff.mp hl
      obtain ⟨x, y, rfl, hx, hy⟩ := Spells.nonterminal_iff.mp hv
      exact h.language_head_append hb hy hx
    · exact language_of_spells (h.head_bodies.mpr ⟨body, hb, hl, .inl rfl⟩) hv
  · rw [← h.other_bodies hhead hn] at hb
    exact language_of_spells hb hv

/-- The tokens of old bodies spell their old words. -/
theorem spells_of_subset (h : p.RepeatsAtEnd head tail q) (hclosed : p.Closed) {name : String}
    {body form : Body} {w : List Char} (hb : body ∈ p.bodies name) (hsub : form ⊆ body)
    (hw : Spells (oldWords p head tail) form w) : Spells p.Language form w := by
  apply hw.mono
  intro other ho v hv
  rwa [oldWords, if_neg (h.ne_tail hclosed hb (hsub ho))] at hv

/-- The new productions give no words but the old ones, and to the new nonterminal what may stand
behind the words of the head. -/
theorem oldWords_of_language (h : p.RepeatsAtEnd head tail q) (hclosed : p.Closed) {name : String}
    {w : List Char} (hw : q.Language name w) : oldWords p head tail name w := by
  refine language_induction ?_ hw
  intro n body hb v hv
  have hrepeat : ∀ {y : List Char}, Spells (oldWords p head tail) [.nonterminal tail] y →
      ∀ u, p.Language head u → p.Language head (u ++ y) := by
    intro y hy
    have hy := Spells.single_iff.mp hy
    rwa [oldWords, if_pos rfl] at hy
  by_cases hn : n = tail
  · subst hn
    rw [oldWords, if_pos rfl]
    intro u hu
    obtain ⟨rest, hrest, rfl | rfl⟩ := h.tail_bodies.mp hb
    · exact language_of_spells hrest
        (.nonterminal hu (h.spells_of_subset hclosed hrest (by simp) hv))
    · obtain ⟨x, y, rfl, hx, hy⟩ := Spells.append_iff.mp hv
      have hux : p.Language head (u ++ x) := language_of_spells hrest
        (.nonterminal hu (h.spells_of_subset hclosed hrest (by simp) hx))
      rw [← List.append_assoc]
      exact hrepeat hy _ hux
  · rw [oldWords, if_neg hn]
    by_cases hhead : n = head
    · subst hhead
      obtain ⟨other, hother, _, rfl | rfl⟩ := h.head_bodies.mp hb
      · exact language_of_spells hother (h.spells_of_subset hclosed hother (by simp) hv)
      · obtain ⟨x, y, rfl, hx, hy⟩ := Spells.append_iff.mp hv
        have hx := h.spells_of_subset hclosed hother (by simp) hx
        exact hrepeat hy _ (language_of_spells hother hx)
    · rw [h.other_bodies hhead hn] at hb
      exact language_of_spells hb (h.spells_of_subset hclosed hb (by simp) hv)

/-- Repetition at the end changes no word of a nonterminal that was there before. -/
theorem language_iff (h : p.RepeatsAtEnd head tail q) (hclosed : p.Closed) {name : String}
    {w : List Char} (hname : name ∈ p.keys) : q.Language name w ↔ p.Language name w := by
  constructor
  · intro hw
    have hne : name ≠ tail := by
      rintro rfl
      exact h.fresh hname
    have hold := h.oldWords_of_language hclosed hw
    rwa [oldWords, if_neg hne] at hold
  · exact h.language_of_language

/-- What repetition at the end keeps. -/
theorem rewrites (h : p.RepeatsAtEnd head tail q) (hclosed : p.Closed)
    (hunit : [.nonterminal head] ∉ p.bodies head) {names : List String}
    (hnames : ∀ name ∈ names, name ∈ p.keys) : Rewrites names p q where
  language name hn _ := h.language_iff hclosed (hnames name hn)
  terminals _ hc := (h.uses_of_uses hc).resolve_right (by simp)
  empty _ hb := h.nil_mem_of_nil_mem hunit hb

end RepeatsAtEnd

/-- Whether or not there is something to repeat, no body of the head begins with the head in the
end, and the words of the nonterminals that were there before are kept. -/
theorem Closed.language_recurseAtEnd_iff {p : Productions} (hclosed : p.Closed) (head : String) :
    (∀ body ∈ (p.recurseAtEnd head).bodies head, leading? body ≠ some head) ∧
      ∀ name ∈ p.keys, ∀ w, (p.recurseAtEnd head).Language name w ↔ p.Language name w := by
  rcases p.recurseAtEnd_cases head with ⟨hself, he⟩ | ⟨hself, tail, htail⟩
  · rw [he]
    exact ⟨fun body hb hl ↦ hself ⟨body, hb, hl⟩, fun _ _ _ ↦ Iff.rfl⟩
  · exact ⟨fun body hb hl ↦ htail.not_leads_head hself.mem_keys ⟨body, hb, hl⟩,
      fun _ hname _ ↦ htail.language_iff hclosed hname⟩

end Productions

/-- Neither change of fronts changes what the nonterminals that were there before derive. After
repetition at the end no body of the head begins with the head, and a replacement leaves no body of
the head that began with the other nonterminal: each of its bodies stands in its place. -/
theorem derives_recurseAtEnd_and_inlineFront_iff {g : Grammar} (hclosed : g.productions.Closed)
    (head : String) :
    (∀ name ∈ g.nonterminals, ∀ w : List Char,
        Derives { g with productions := g.productions.recurseAtEnd head } [.nonterminal name]
          (w.map .terminal) ↔ g.Derives [.nonterminal name] (w.map .terminal)) ∧
      (∀ body ∈ (g.productions.recurseAtEnd head).bodies head, leading? body ≠ some head) ∧
      ∀ front ≠ head,
        (∀ name ∈ g.nonterminals, ∀ w : List Char,
          Derives { g with productions := g.productions.inlineFront head front }
            [.nonterminal name] (w.map .terminal) ↔
              g.Derives [.nonterminal name] (w.map .terminal)) ∧
        ∀ body, body ∈ (g.productions.inlineFront head front).bodies head ↔
          body ∈ g.bodies head ∧ leading? body ≠ some front ∨
            ∃ rest, .nonterminal front :: rest ∈ g.bodies head ∧
              ∃ r ∈ g.bodies front, body = r ++ rest := by
  obtain ⟨hfronts, hwords⟩ := hclosed.language_recurseAtEnd_iff head
  simp only [derives_iff_language]
  refine ⟨hwords, hfronts, fun front hne ↦ ⟨fun name _ w ↦ ?_, fun body ↦ ?_⟩⟩
  · by_cases hfront : front ∈ g.productions.keys
    · exact Productions.language_inlineFront_iff hfront hne
    · rw [Productions.inlineFront_of_notMem hfront]
  · exact hclosed.mem_bodies_inlineFront_iff

/-- A start symbol that begins one of its bodies, and a nonterminal behind it that leads back. -/
theorem derives_recurseAtEnd_and_inlineFront_iff_tangled :
    tangled.productions.Closed ∧
      tangled.productions.Leads "S" "S" ∧ tangled.productions.Leads "S" "A" ∧
      (∀ name ∈ tangled.nonterminals, ∀ w : List Char,
        Derives { tangled with productions := tangled.productions.recurseAtEnd "S" }
          [.nonterminal name] (w.map .terminal) ↔
            tangled.Derives [.nonterminal name] (w.map .terminal)) ∧
      ∀ name ∈ tangled.nonterminals, ∀ w : List Char,
        Derives { tangled with productions := tangled.productions.inlineFront "S" "A" }
          [.nonterminal name] (w.map .terminal) ↔
            tangled.Derives [.nonterminal name] (w.map .terminal) := by
  have hg : tangled.WellFormed := by decide
  have hclosed := (wellFormed_iff.mp hg).2.1
  have h := derives_recurseAtEnd_and_inlineFront_iff hclosed "S"
  refine ⟨hclosed, ?_, ?_, h.1, (h.2.2 "A" (by decide)).1⟩
  · exact ⟨[.nonterminal "S", .nonterminal "S"], by decide, rfl⟩
  · exact ⟨[.nonterminal "A"], by decide, rfl⟩

example : (tangled.productions.recurseAtEnd "S").bodies "S" =
    [[.nonterminal "A"], [.nonterminal "A", .nonterminal "S'"], [], [.nonterminal "S'"]] := by cbv

end LanguageTheory.Grammar
