import LanguageTheory.Grammar.Proper
import LanguageTheory.Proofs.Grammar.Symbols

/-!
# Removing empty bodies

Erasing nullable nonterminals from bodies loses the empty word of each nonterminal and no other
word. A fresh start symbol, which no body has, gives the empty word back to the grammar.
-/

namespace LanguageTheory.Grammar

/-! ### Bodies without some nullable nonterminals -/

/-- The variants of a body keep its first token or erase it. -/
theorem mem_variants_cons {erasable : Token → Bool} {t : Token} {body variant : Body} :
    variant ∈ variants erasable (t :: body) ↔
      (∃ rest ∈ variants erasable body, variant = t :: rest) ∨
        erasable t = true ∧ variant ∈ variants erasable body := by
  have hkept : variant ∈ (variants erasable body).map (t :: ·) ↔
      ∃ rest ∈ variants erasable body, variant = t :: rest := by
    rw [List.mem_map]
    exact exists_congr fun rest ↦ and_congr_right fun _ ↦ eq_comm
  rw [variants]
  by_cases h : erasable t = true
  · simp only [h, if_true, List.mem_append, hkept, true_and]
  · simp only [h, if_false, hkept, false_and, or_false, Bool.false_eq_true]

/-- The tokens of a variant are tokens of the body. -/
theorem mem_of_mem_variants {erasable : Token → Bool} {body variant : Body}
    (h : variant ∈ variants erasable body) : ∀ t ∈ variant, t ∈ body := by
  induction body generalizing variant with
  | nil =>
    rw [variants, List.mem_singleton] at h
    subst h
    exact fun t ht ↦ ht
  | cons s body ih =>
    intro t ht
    rcases mem_variants_cons.mp h with ⟨rest, hr, rfl⟩ | ⟨_, hr⟩
    · rcases List.mem_cons.mp ht with rfl | ht
      · exact List.mem_cons_self
      · exact List.mem_cons_of_mem s (ih hr t ht)
    · exact List.mem_cons_of_mem s (ih hr t ht)

variable {words others : String → List Char → Prop}

/-- A body spells what its variants spell, if what was erased has the empty word. -/
theorem Spells.of_mem_variants {erasable : Token → Bool} {body variant : Body} {w : List Char}
    (herase : ∀ t, erasable t = true → ∃ name, t = .nonterminal name ∧ words name [])
    (h : variant ∈ variants erasable body) (hw : Spells words variant w) :
    Spells words body w := by
  induction body generalizing variant w with
  | nil =>
    rw [variants, List.mem_singleton] at h
    subst h
    exact hw
  | cons t body ih =>
    rcases mem_variants_cons.mp h with ⟨rest, hr, rfl⟩ | ⟨ht, hr⟩
    · cases hw with
      | terminal c hv => exact .terminal c (ih hr hv)
      | nonterminal hu hv => exact .nonterminal hu (ih hr hv)
    · obtain ⟨name, rfl, hname⟩ := herase t ht
      exact .nonterminal hname (ih hr hw)

/-- What a body spells is spelled by the variant without the nonterminals that stood for the empty
word. -/
theorem Spells.exists_variant {erasable : Token → Bool} {body : Body} {w : List Char}
    (herase : ∀ name, words name [] → erasable (.nonterminal name) = true)
    (hkeep : ∀ name v, words name v → v ≠ [] → others name v) (hw : Spells words body w) :
    ∃ variant ∈ variants erasable body, Spells others variant w := by
  induction hw with
  | nil => exact ⟨[], by simp [variants], .nil⟩
  | terminal c _ ih =>
    obtain ⟨rest, hr, hw⟩ := ih
    exact ⟨_, mem_variants_cons.mpr (Or.inl ⟨rest, hr, rfl⟩), .terminal c hw⟩
  | @nonterminal name form v w hv _ ih =>
    obtain ⟨rest, hr, hw⟩ := ih
    by_cases he : v = []
    · subst he
      exact ⟨rest, mem_variants_cons.mpr (Or.inr ⟨herase name hv, hr⟩), hw⟩
    · have hname := hkeep name v hv he
      exact ⟨_, mem_variants_cons.mpr (Or.inl ⟨rest, hr, rfl⟩), .nonterminal hname hw⟩

/-- The productions without empty bodies, before a start symbol is added. -/
def erased (g : Grammar) : Productions :=
  g.productions.mapValues fun _ bodies ↦
    OrderedSet.ofList ((bodies.toList.flatMap (variants (isNullable g.nullable))).filter
      fun body ↦ !body.isEmpty)

/-- The bodies without some of the nullable nonterminals. -/
theorem mem_bodies_erased {g : Grammar} {name : String} {body : Body} :
    body ∈ g.erased.bodies name ↔
      body ≠ [] ∧ ∃ old ∈ g.bodies name, body ∈ variants (isNullable g.nullable) old := by
  unfold erased
  rw [Productions.mem_bodies_mapValues]
  simp only [OrderedSet.mem_ofList, List.mem_filter, List.mem_flatMap, Bool.not_eq_true',
    List.isEmpty_eq_false_iff]
  constructor
  · rintro ⟨bodies, hn, ⟨old, hold, hb⟩, hne⟩
    exact ⟨hne, old, Productions.mem_bodies_iff.mpr ⟨bodies, hn, hold⟩, hb⟩
  · rintro ⟨hne, old, hold, hb⟩
    obtain ⟨bodies, hn, hold⟩ := Productions.mem_bodies_iff.mp hold
    exact ⟨bodies, hn, ⟨old, hold, hb⟩, hne⟩

/-- Erasing uses no new token. -/
theorem uses_of_uses_erased {g : Grammar} {t : Token} (h : g.erased.Uses t) :
    g.productions.Uses t := by
  obtain ⟨name, body, hb, ht⟩ := h
  obtain ⟨_, old, hold, hv⟩ := mem_bodies_erased.mp hb
  exact .of_mem hold (mem_of_mem_variants hv t ht)

/-- Erasing keeps the nonterminals. -/
theorem keys_erased (g : Grammar) : g.erased.keys = g.nonterminals := Table.keys_mapValues _ _

/-- Without empty bodies, no nonterminal has the empty word. -/
theorem Productions.ne_nil_of_language {p : Productions} (h : ∀ name, [] ∉ p.bodies name)
    {name : String} {w : List Char} (hw : p.Language name w) : w ≠ [] := by
  refine Productions.language_induction (motive := fun _ v ↦ v ≠ []) ?_ hw
  intro m body hb v hv he
  have hle := hv.length_le fun _ _ hnil ↦ hnil rfl
  rw [he, List.length_nil, Nat.le_zero, List.length_eq_zero_iff] at hle
  subst hle
  exact h m hb

/-- Erasing adds no word. -/
theorem language_of_erased {g : Grammar} {name : String} {w : List Char}
    (h : g.erased.Language name w) : g.productions.Language name w := by
  refine Productions.language_induction ?_ h
  intro m body hb v hv
  obtain ⟨_, old, hold, hvariant⟩ := mem_bodies_erased.mp hb
  refine Productions.language_of_spells hold (hv.of_mem_variants ?_ hvariant)
  intro t ht
  obtain ⟨n, he, hn⟩ := isNullable_iff.mp ht
  exact ⟨n, he, mem_nullable_iff.mp hn⟩

/-- Erasing loses no word but the empty one. -/
theorem language_erased {g : Grammar} {name : String} {w : List Char}
    (h : g.productions.Language name w) (hne : w ≠ []) : g.erased.Language name w := by
  refine Productions.language_induction_of_words
    (motive := fun m v ↦ v ≠ [] → g.erased.Language m v) ?_ h hne
  intro m body hb v hv hne
  have hvariants : ∃ variant ∈ variants (isNullable g.nullable) body,
      Spells g.erased.Language variant v := by
    apply hv.exists_variant
    · intro n hn
      exact isNullable_iff.mpr ⟨n, rfl, mem_nullable_iff.mpr hn.1⟩
    · intro n u hu hu'
      exact hu.2 hu'
  obtain ⟨variant, hvariant, hnew⟩ := hvariants
  refine Productions.language_of_spells (mem_bodies_erased.mpr ⟨?_, body, hb, hvariant⟩) hnew
  intro he
  subst he
  exact hne (Spells.nil_iff.mp hnew)

/-- Erasing loses the empty words only. -/
theorem language_erased_iff {g : Grammar} {name : String} {w : List Char} :
    g.erased.Language name w ↔ g.productions.Language name w ∧ w ≠ [] := by
  constructor
  · intro h
    exact ⟨language_of_erased h,
      Productions.ne_nil_of_language (fun m hm ↦ (mem_bodies_erased.mp hm).1 rfl) h⟩
  · rintro ⟨h, hne⟩
    exact language_erased h hne

/-! ### Removing empty bodies -/

private theorem removeEpsilon_of_mem {g : Grammar} (h : g.start ∈ g.nullable) :
    g.removeEpsilon =
      { start := g.freshNonterminal (g.start ++ "'")
        terminals := g.terminals
        productions := (Table.ofList [(g.freshNonterminal (g.start ++ "'"),
          OrderedSet.ofList [[], [.nonterminal g.start]])]).insertMany g.erased.entries } :=
  if_pos h

private theorem removeEpsilon_of_notMem {g : Grammar} (h : g.start ∉ g.nullable) :
    g.removeEpsilon = { g with productions := g.erased } := if_neg h

/-- A start symbol with the empty word is replaced by one with a prime. -/
theorem start_removeEpsilon_of_mem {g : Grammar} (h : g.start ∈ g.nullable) :
    g.removeEpsilon.start = g.freshNonterminal (g.start ++ "'") := by
  rw [removeEpsilon_of_mem h]

/-- A start symbol with the empty word is replaced by a fresh one. -/
theorem start_removeEpsilon_notMem {g : Grammar} (h : g.start ∈ g.nullable) :
    g.removeEpsilon.start ∉ g.nonterminals := by
  rw [removeEpsilon_of_mem h]
  exact freshName_notMem _ _

/-- A start symbol without the empty word stays. -/
theorem start_removeEpsilon_eq {g : Grammar} (h : g.start ∉ g.nullable) :
    g.removeEpsilon.start = g.start := by
  rw [removeEpsilon_of_notMem h]

/-- Removing empty bodies keeps the terminals. -/
theorem terminals_removeEpsilon (g : Grammar) : g.removeEpsilon.terminals = g.terminals := by
  by_cases h : g.start ∈ g.nullable
  · rw [removeEpsilon_of_mem h]
  · rw [removeEpsilon_of_notMem h]

/-- The nonterminals are the old ones and the start symbol. -/
theorem mem_nonterminals_removeEpsilon {g : Grammar} (hg : g.WellFormed) {name : String} :
    name ∈ g.removeEpsilon.nonterminals ↔
      name ∈ g.nonterminals ∨ name = g.removeEpsilon.start := by
  by_cases h : g.start ∈ g.nullable
  · rw [removeEpsilon_of_mem h, nonterminals, Productions.mem_keys_insertMany_entries, keys_erased]
  · rw [removeEpsilon_of_notMem h]
    change name ∈ g.erased.keys ↔ _
    rw [keys_erased]
    constructor
    · exact Or.inl
    · rintro (hn | rfl)
      · exact hn
      · exact hg.start_mem

/-- The bodies are the erased ones, and those of a fresh start symbol. -/
theorem mem_bodies_removeEpsilon {g : Grammar} {name : String} {body : Body} :
    body ∈ g.removeEpsilon.bodies name ↔
      body ∈ g.erased.bodies name ∨
        g.start ∈ g.nullable ∧ name = g.removeEpsilon.start ∧
          (body = [] ∨ body = [.nonterminal g.start]) := by
  by_cases h : g.start ∈ g.nullable
  · have hfresh : g.freshNonterminal (g.start ++ "'") ∉ g.erased.keys := by
      rw [keys_erased]
      exact freshName_notMem _ _
    rw [removeEpsilon_of_mem h, Grammar.bodies, Productions.mem_bodies_insertMany_entries hfresh]
    simp [h]
  · rw [removeEpsilon_of_notMem h]
    simp [Grammar.bodies, h]

/-- Only the start symbol has the empty body, and only if no body has the start symbol. -/
def Noncontracting (g : Grammar) : Prop :=
  ∀ name, [] ∈ g.bodies name → name = g.start ∧ ¬ g.productions.Uses (.nonterminal g.start)

/-- Deciding where the empty body is. -/
theorem isNoncontracting_iff {g : Grammar} : g.isNoncontracting = true ↔ g.Noncontracting := by
  unfold isNoncontracting Noncontracting
  rw [List.all_eq_true]
  constructor
  · intro h name hb
    have := h (name, []) (mem_rules_iff.mpr hb)
    simpa [← usesStart_iff] using this
  · rintro h ⟨name, body⟩ hr
    cases body with
    | nil => simpa [← usesStart_iff] using h name (mem_rules_iff.mp hr)
    | cons t body => rfl

/-- Removing empty bodies leaves one at a start symbol that no body has. -/
theorem noncontracting_removeEpsilon {g : Grammar} (hg : g.WellFormed) :
    g.removeEpsilon.Noncontracting := by
  obtain ⟨hstart, hclosed, _⟩ := wellFormed_iff.mp hg
  intro name h
  rcases mem_bodies_removeEpsilon.mp h with h | ⟨hnull, he, _⟩
  · exact absurd rfl (mem_bodies_erased.mp h).1
  · have hfresh := start_removeEpsilon_notMem hnull
    refine ⟨he, ?_⟩
    rintro ⟨m, body, hb, ht⟩
    rcases mem_bodies_removeEpsilon.mp hb with hb | ⟨_, _, rfl | rfl⟩
    · exact hfresh (hclosed _ (uses_of_uses_erased (.of_mem hb ht)))
    · cases ht
    · rw [List.mem_singleton, Token.nonterminal.injEq] at ht
      rw [ht] at hfresh
      exact hfresh hstart

/-- Removing empty bodies keeps a grammar well formed. -/
theorem WellFormed.removeEpsilon {g : Grammar} (hg : g.WellFormed) :
    g.removeEpsilon.WellFormed := by
  obtain ⟨hstart, hclosed, hterminals⟩ := wellFormed_iff.mp hg
  refine wellFormed_iff.mpr ⟨?_, ?_, ?_⟩
  · exact (mem_nonterminals_removeEpsilon hg).mpr (Or.inr rfl)
  · rintro name ⟨m, body, hb, ht⟩
    refine (mem_nonterminals_removeEpsilon hg).mpr (Or.inl ?_)
    rcases mem_bodies_removeEpsilon.mp hb with hb | ⟨_, _, rfl | rfl⟩
    · exact hclosed name (uses_of_uses_erased (.of_mem hb ht))
    · cases ht
    · rw [List.mem_singleton, Token.nonterminal.injEq] at ht
      subst ht
      exact hstart
  · rintro c ⟨m, body, hb, ht⟩
    rw [terminals_removeEpsilon]
    rcases mem_bodies_removeEpsilon.mp hb with hb | ⟨_, _, rfl | rfl⟩
    · exact hterminals c (uses_of_uses_erased (.of_mem hb ht))
    · cases ht
    · simp at ht

/-- The words of the old nonterminals are those without the empty one. -/
theorem language_removeEpsilon_iff {g : Grammar} (hg : g.WellFormed) {name : String}
    (hn : name ∈ g.nonterminals) {w : List Char} :
    g.removeEpsilon.productions.Language name w ↔ g.productions.Language name w ∧ w ≠ [] := by
  obtain ⟨_, hclosed, _⟩ := wellFormed_iff.mp hg
  rw [← language_erased_iff]
  constructor
  · intro h
    refine Productions.language_induction
      (motive := fun m v ↦ m ∈ g.nonterminals → g.erased.Language m v) ?_ h hn
    intro m body hb v hv hm
    rcases mem_bodies_removeEpsilon.mp hb with hb | ⟨hnull, he, _⟩
    · refine Productions.language_of_spells hb (hv.mono fun k hk u hu ↦ hu ?_)
      exact hclosed k (uses_of_uses_erased (.of_mem hb hk))
    · exact absurd (he ▸ hm) (start_removeEpsilon_notMem hnull)
  · intro h
    refine Productions.language_induction ?_ h
    intro m body hb v hv
    exact Productions.language_of_spells (mem_bodies_removeEpsilon.mpr (Or.inl hb)) hv

/-- Removing empty bodies keeps the words of a grammar. -/
theorem generates_removeEpsilon_iff {g : Grammar} (hg : g.WellFormed) {w : List Char} :
    g.removeEpsilon.Generates w ↔ g.Generates w := by
  rw [generates_iff, generates_iff]
  by_cases h : g.start ∈ g.nullable
  · have hempty := mem_nullable_iff.mp h
    rw [Productions.language_iff]
    constructor
    · rintro ⟨body, hb, hw⟩
      rcases mem_bodies_removeEpsilon.mp hb with hb | ⟨_, _, rfl | rfl⟩
      · have hkey := Productions.mem_keys_of_mem_bodies hb
        rw [keys_erased] at hkey
        exact absurd hkey (start_removeEpsilon_notMem h)
      · rw [Spells.nil_iff.mp hw]
        exact hempty
      · rw [Spells.single_iff, language_removeEpsilon_iff hg hg.start_mem] at hw
        exact hw.1
    · intro hw
      by_cases he : w = []
      · subst he
        exact ⟨[], mem_bodies_removeEpsilon.mpr (Or.inr ⟨h, rfl, Or.inl rfl⟩), .nil⟩
      · refine ⟨_, mem_bodies_removeEpsilon.mpr (Or.inr ⟨h, rfl, Or.inr rfl⟩), ?_⟩
        rw [Spells.single_iff, language_removeEpsilon_iff hg hg.start_mem]
        exact ⟨hw, he⟩
  · rw [start_removeEpsilon_eq h, language_removeEpsilon_iff hg hg.start_mem]
    constructor
    · exact fun hw ↦ hw.1
    · intro hw
      refine ⟨hw, fun he ↦ h ?_⟩
      subst he
      exact mem_nullable_iff.mpr hw

/-- The empty body is that of the start symbol, for a grammar with the empty word. -/
theorem nil_mem_bodies_removeEpsilon_iff {g : Grammar} {name : String} :
    [] ∈ g.removeEpsilon.bodies name ↔ name = g.removeEpsilon.start ∧ g.Generates [] := by
  rw [mem_bodies_removeEpsilon, mem_bodies_erased, generates_iff, ← mem_nullable_iff]
  simp [and_comm]

/-- The start symbol has the empty body if the grammar has the empty word, it occurs in no body
then, and no other nonterminal has the empty body. The grammar has the same words, and each of its
nonterminals has the words that it had before but for the empty one. -/
theorem noncontracting_and_derives_removeEpsilon {g : Grammar} (hg : g.WellFormed) :
    (∀ name, [] ∈ g.removeEpsilon.bodies name →
        name = g.removeEpsilon.start ∧
          ¬ g.removeEpsilon.productions.Uses (.nonterminal g.removeEpsilon.start)) ∧
      ([] ∈ g.removeEpsilon.bodies g.removeEpsilon.start ↔ g.Generates []) ∧
      (∀ w, g.removeEpsilon.Generates w ↔ g.Generates w) ∧
      ∀ name ∈ g.nonterminals, ∀ w : List Char,
        g.removeEpsilon.Derives [.nonterminal name] (w.map .terminal) ↔
          g.Derives [.nonterminal name] (w.map .terminal) ∧ w ≠ [] := by
  refine ⟨noncontracting_removeEpsilon hg, ?_, fun w ↦ generates_removeEpsilon_iff hg, ?_⟩
  · rw [nil_mem_bodies_removeEpsilon_iff]
    exact and_iff_right rfl
  · intro name hn w
    rw [derives_iff_language, derives_iff_language]
    exact language_removeEpsilon_iff hg hn

/-- A grammar whose start symbol derives the empty word, also by way of another nonterminal. -/
theorem noncontracting_and_derives_removeEpsilon_tangled :
    tangled.WellFormed ∧ [] ∈ tangled.removeEpsilon.bodies tangled.removeEpsilon.start ∧
      ¬ tangled.removeEpsilon.productions.Uses (.nonterminal tangled.removeEpsilon.start) ∧
      (∀ w, tangled.removeEpsilon.Generates w ↔ tangled.Generates w) ∧
      "A" ∈ tangled.nonterminals ∧
      ∀ w : List Char, tangled.removeEpsilon.Derives [.nonterminal "A"] (w.map .terminal) ↔
        tangled.Derives [.nonterminal "A"] (w.map .terminal) ∧ w ≠ [] := by
  have hg : tangled.WellFormed := by decide
  have hname : "A" ∈ tangled.nonterminals := by decide
  have hempty : tangled.Generates [] := generates_iff.mpr ⟨[], by decide, .nil⟩
  obtain ⟨hbodies, hstart, hwords, hnonterminals⟩ := noncontracting_and_derives_removeEpsilon hg
  have hbody := hstart.mpr hempty
  exact ⟨hg, hbody, (hbodies _ hbody).2, hwords, hname, hnonterminals "A" hname⟩

example : tangled.removeEpsilon.start = "S'" ∧ tangled.removeEpsilon.bodies "S" =
    [[.nonterminal "S", .nonterminal "S"], [.nonterminal "S"], [.nonterminal "A"]] := by cbv

end LanguageTheory.Grammar
