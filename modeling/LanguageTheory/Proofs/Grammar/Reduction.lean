import LanguageTheory.Grammar.Reduction
import LanguageTheory.Proofs.Grammar.Symbols

/-!
# Reduction keeps the words

Reduction restricts a grammar twice, first to its generating nonterminals and then to what the start
symbol leads to. Neither step takes a word away, the result is well formed again, and either all its
nonterminals are useful or it has no production at all. Besides the start symbol, what is left is
what takes part in words: a derivation that ends in a word never leaves the generating nonterminals,
so the second restriction finds all that the derivations of words use.
-/

namespace LanguageTheory.Grammar

/-! ### Restriction -/

/-- The bodies that a restriction keeps. -/
theorem mem_bodies_restrict {g : Grammar} {keep : String → Bool} {name : String} {body : Body} :
    body ∈ (g.restrict keep).bodies name ↔
      (name = g.start ∨ keep name = true) ∧ body ∈ g.bodies name ∧
        ∀ m, .nonterminal m ∈ body → keep m = true := by
  have hall : ∀ t : Token, t.name?.all keep = true ↔
      ∀ m, t = .nonterminal m → keep m = true := by
    intro t
    cases t <;> simp [Token.name?]
  unfold Grammar.bodies restrict
  rw [Productions.mem_bodies_mapValues]
  simp only [Table.get?_filterKeys, OrderedSet.mem_filter, List.all_eq_true, hall]
  constructor
  · rintro ⟨bodies, hb, hbody, htokens⟩
    split at hb
    · next hkeep =>
      refine ⟨by simpa using hkeep, Productions.mem_bodies_iff.mpr ⟨bodies, hb, hbody⟩, ?_⟩
      exact fun m hm ↦ htokens _ hm m rfl
    · cases hb
  · rintro ⟨hkeep, hbody, hnames⟩
    obtain ⟨bodies, hb, hbody⟩ := Productions.mem_bodies_iff.mp hbody
    refine ⟨bodies, ?_, hbody, ?_⟩
    · rw [if_pos (by simpa using hkeep)]
      exact hb
    · intro t ht m he
      subst he
      exact hnames m ht

/-- The nonterminals that a restriction keeps. -/
theorem mem_nonterminals_restrict {g : Grammar} {keep : String → Bool} {name : String} :
    name ∈ (g.restrict keep).nonterminals ↔
      name ∈ g.nonterminals ∧ (name = g.start ∨ keep name = true) := by
  unfold nonterminals restrict
  rw [Table.keys_mapValues, Table.keys_filterKeys, List.mem_filter]
  simp

/-- A restriction gives no new words. -/
theorem language_of_restrict {g : Grammar} {keep : String → Bool} {name : String} {w : List Char}
    (h : (g.restrict keep).productions.Language name w) : g.productions.Language name w :=
  Productions.language_mono (fun _ _ hb ↦ (mem_bodies_restrict.mp hb).2.1) h

/-! ### Generating nonterminals -/

/-- A nonterminal with a body of generating tokens is generating. -/
theorem mem_generating_of_mem_bodies {g : Grammar} {name : String} {body : Body}
    (hb : body ∈ g.bodies name) (h : ∀ m, .nonterminal m ∈ body → m ∈ g.generating) :
    name ∈ g.generating := by
  obtain ⟨w, hw⟩ := Spells.exists_of_forall fun m hm ↦ mem_generating_iff.mp (h m hm)
  exact mem_generating_iff.mpr ⟨w, Productions.language_of_spells hb hw⟩

/-- The grammar of the generating nonterminals. -/
def productive (g : Grammar) : Grammar := g.restrict g.generating.contains

/-- The bodies of generating nonterminals. -/
theorem mem_bodies_productive {g : Grammar} {name : String} {body : Body} :
    body ∈ g.productive.bodies name ↔
      body ∈ g.bodies name ∧ ∀ m, .nonterminal m ∈ body → m ∈ g.generating := by
  unfold productive
  rw [mem_bodies_restrict]
  simp only [OrderedSet.contains_iff]
  constructor
  · exact fun h ↦ h.2
  · intro h
    exact ⟨Or.inr (mem_generating_of_mem_bodies h.1 h.2), h⟩

/-- A nonterminal that keeps a body is generating. -/
theorem mem_generating_of_mem_bodies_productive {g : Grammar} {name : String} {body : Body}
    (h : body ∈ g.productive.bodies name) : name ∈ g.generating := by
  obtain ⟨hb, hnames⟩ := mem_bodies_productive.mp h
  exact mem_generating_of_mem_bodies hb hnames

/-- The words need generating nonterminals only. -/
theorem language_productive_iff {g : Grammar} {name : String} {w : List Char} :
    g.productive.productions.Language name w ↔ g.productions.Language name w := by
  refine ⟨language_of_restrict, fun h ↦ ?_⟩
  refine Productions.language_induction_of_words ?_ h
  intro m body hb v hv
  have hkept : body ∈ g.productive.bodies m := by
    refine mem_bodies_productive.mpr ⟨hb, fun n hn ↦ ?_⟩
    obtain ⟨u, hu, _⟩ := hv.exists_word hn
    exact mem_generating_iff.mpr ⟨u, hu⟩
  exact Productions.language_of_spells hkept (hv.mono fun _ _ _ hu ↦ hu.2)

/-- The bodies of the generating nonterminals are bodies of the grammar. -/
theorem Derives.of_productive {g : Grammar} {form last : Body}
    (h : g.productive.Derives form last) : g.Derives form last :=
  h.mono fun _ _ hb ↦ (mem_bodies_productive.mp hb).1

/-- A derivation that can be continued to a word uses bodies of generating nonterminals only. -/
theorem Derives.productive {g : Grammar} {form last : Body} {w : List Char}
    (h : g.Derives form last) (hw : g.Derives last (w.map .terminal)) :
    g.productive.Derives form last := by
  induction h with
  | refl form => exact .refl form
  | @step form next last hs hd ih =>
    have hnext := Productions.yields_iff_spells.mp (derives_iff_yields.mp (hd.trans hw))
    refine .step ?_ (ih hw)
    cases hs with
    | replace before after hb =>
      refine .replace before after (mem_bodies_productive.mpr ⟨hb, fun m hm ↦ ?_⟩)
      exact mem_generating_iff.mpr (hnext.exists_word (by simp [hm]))

/-- If the start symbol is generating, then so is every nonterminal that it leads to by bodies of
generating nonterminals. -/
theorem mem_generating_of_mem_reachable {g : Grammar} (h : g.start ∈ g.generating) {name : String}
    (hn : .nonterminal name ∈ g.productive.reachable) : name ∈ g.generating := by
  refine reachable_induction (motive := fun t ↦ ∀ m, t = .nonterminal m → m ∈ g.generating)
    ?_ ?_ _ hn name rfl
  · intro m he
    cases he
    exact h
  · intro head _ body hb t ht m he
    subst he
    exact (mem_bodies_productive.mp hb).2 m ht

/-! ### Reachable nonterminals -/

/-- The grammar of the nonterminals that the start symbol leads to. -/
def trimmed (g : Grammar) : Grammar :=
  g.restrict fun name ↦ g.reachable.contains (.nonterminal name)

/-- The bodies of reachable nonterminals. -/
theorem mem_bodies_trimmed {g : Grammar} {name : String} {body : Body} :
    body ∈ g.trimmed.bodies name ↔
      .nonterminal name ∈ g.reachable ∧ body ∈ g.bodies name := by
  unfold trimmed
  rw [mem_bodies_restrict]
  simp only [OrderedSet.contains_iff]
  constructor
  · rintro ⟨rfl | hn, hb, _⟩
    · exact ⟨g.start_mem_reachable, hb⟩
    · exact ⟨hn, hb⟩
  · rintro ⟨hn, hb⟩
    exact ⟨Or.inr hn, hb, fun m hm ↦ mem_reachable_of_mem_body hn hb hm⟩

/-- The words of reachable nonterminals need reachable nonterminals only. -/
theorem language_trimmed_iff {g : Grammar} {name : String} {w : List Char}
    (hn : .nonterminal name ∈ g.reachable) :
    g.trimmed.productions.Language name w ↔ g.productions.Language name w := by
  refine ⟨language_of_restrict, fun h ↦ ?_⟩
  refine Productions.language_induction
    (motive := fun m v ↦ .nonterminal m ∈ g.reachable → g.trimmed.productions.Language m v) ?_ h hn
  intro m body hb v hv hm
  refine Productions.language_of_spells (mem_bodies_trimmed.mpr ⟨hm, hb⟩) (hv.mono ?_)
  exact fun k hk u hu ↦ hu (mem_reachable_of_mem_body hm hb hk)

/-! ### Reduction -/

/-- The bodies that reduction keeps. -/
theorem mem_bodies_reduce {g : Grammar} {name : String} {body : Body} :
    body ∈ g.reduce.bodies name ↔
      .nonterminal name ∈ g.productive.reachable ∧ body ∈ g.productive.bodies name :=
  mem_bodies_trimmed (g := g.productive)

/-- Reduction adds no body. -/
theorem mem_bodies_of_mem_bodies_reduce {g : Grammar} {name : String} {body : Body}
    (h : body ∈ g.reduce.bodies name) : body ∈ g.bodies name :=
  (mem_bodies_productive.mp (mem_bodies_reduce.mp h).2).1

/-- Reduction uses no new token. -/
theorem uses_of_uses_reduce {g : Grammar} {t : Token} (h : g.reduce.productions.Uses t) :
    g.productions.Uses t := by
  obtain ⟨name, body, hb, ht⟩ := h
  exact .of_mem (mem_bodies_of_mem_bodies_reduce hb) ht

/-- The nonterminals that reduction keeps. -/
theorem mem_nonterminals_reduce {g : Grammar} {name : String} :
    name ∈ g.reduce.nonterminals ↔
      name ∈ g.nonterminals ∧ (name = g.start ∨ name ∈ g.generating) ∧
        .nonterminal name ∈ g.productive.reachable := by
  have h : name ∈ g.reduce.nonterminals ↔ name ∈ g.productive.trimmed.nonterminals := Iff.rfl
  rw [h, trimmed, mem_nonterminals_restrict, productive, mem_nonterminals_restrict, and_assoc]
  simp only [OrderedSet.contains_iff]
  constructor
  · rintro ⟨hn, hkeep, hreach | hreach⟩
    · subst hreach
      exact ⟨hn, hkeep, g.productive.start_mem_reachable⟩
    · exact ⟨hn, hkeep, hreach⟩
  · rintro ⟨hn, hkeep, hreach⟩
    exact ⟨hn, hkeep, Or.inr hreach⟩

/-- The terminals that reduction keeps. -/
theorem mem_terminals_reduce {g : Grammar} {c : Char} :
    c ∈ g.reduce.terminals ↔
      c ∈ g.terminals ∧ g.start ∈ g.generating ∧ .terminal c ∈ g.productive.reachable := by
  refine OrderedSet.mem_filter.trans (and_congr_right fun _ ↦ ?_)
  rw [Bool.and_eq_true, OrderedSet.contains_iff, OrderedSet.contains_iff]
  exact Iff.rfl

/-- The words of reachable nonterminals stay. -/
theorem language_reduce_iff {g : Grammar} {name : String} {w : List Char}
    (hn : .nonterminal name ∈ g.productive.reachable) :
    g.reduce.productions.Language name w ↔ g.productions.Language name w :=
  (language_trimmed_iff hn).trans language_productive_iff

/-- Reduction keeps the words of a grammar. -/
theorem generates_reduce_iff {g : Grammar} {w : List Char} :
    g.reduce.Generates w ↔ g.Generates w := by
  rw [generates_iff, generates_iff]
  exact language_reduce_iff g.productive.start_mem_reachable

/-- Unless the start symbol is generating, it leads to nothing by bodies of generating
nonterminals. -/
theorem eq_start_of_mem_reachable {g : Grammar} (h : g.start ∉ g.generating) {t : Token}
    (ht : t ∈ g.productive.reachable) : t = .nonterminal g.start := by
  revert t
  apply reachable_induction
  · rfl
  · intro m hm body hb
    cases hm
    exact absurd (mem_generating_of_mem_bodies_productive hb) h

/-- A production that reduction keeps shows that the start symbol is generating. -/
theorem start_mem_generating {g : Grammar} {name : String} {body : Body}
    (h : body ∈ g.reduce.bodies name) : g.start ∈ g.generating := by
  obtain ⟨hn, hb⟩ := mem_bodies_reduce.mp h
  by_contra hstart
  cases eq_start_of_mem_reachable hstart hn
  exact hstart (mem_generating_of_mem_bodies_productive hb)

/-- Reduction keeps a grammar well formed. -/
theorem WellFormed.reduce {g : Grammar} (h : g.WellFormed) : g.reduce.WellFormed := by
  obtain ⟨hstart, hclosed, hterminals⟩ := wellFormed_iff.mp h
  refine wellFormed_iff.mpr ⟨?_, ?_, ?_⟩
  · exact mem_nonterminals_reduce.mpr ⟨hstart, Or.inl rfl, g.productive.start_mem_reachable⟩
  · rintro name ⟨head, body, hb, ht⟩
    obtain ⟨hn, hp⟩ := mem_bodies_reduce.mp hb
    refine mem_nonterminals_reduce.mpr ⟨?_, Or.inr ?_, mem_reachable_of_mem_body hn hp ht⟩
    · exact hclosed name (.of_mem (mem_bodies_of_mem_bodies_reduce hb) ht)
    · exact (mem_bodies_productive.mp hp).2 name ht
  · rintro c ⟨head, body, hb, ht⟩
    obtain ⟨hn, hp⟩ := mem_bodies_reduce.mp hb
    refine mem_terminals_reduce.mpr
      ⟨?_, start_mem_generating hb, mem_reachable_of_mem_body hn hp ht⟩
    exact hterminals c (.of_mem (mem_bodies_of_mem_bodies_reduce hb) ht)

/-- Reduction declares no new terminal. -/
theorem mem_terminals_of_mem_terminals_reduce {g : Grammar} {c : Char}
    (h : c ∈ g.reduce.terminals) : c ∈ g.terminals := (mem_terminals_reduce.mp h).1

/-- A grammar is reduced when all its nonterminals are generating and reachable. -/
theorem isReduced_iff {g : Grammar} :
    g.isReduced = true ↔
      ∀ name ∈ g.nonterminals, name ∈ g.generating ∧ .nonterminal name ∈ g.reachable := by
  unfold isReduced
  simp

/-- Without a generating start symbol, reduction leaves no terminal. -/
theorem terminals_reduce_eq_nil {g : Grammar} (h : g.start ∉ g.generating) :
    g.reduce.terminals.toList = [] := by
  rw [List.eq_nil_iff_forall_not_mem]
  intro c hc
  exact h (mem_terminals_reduce.mp hc).2.1

/-- With a generating start symbol, reduction leaves useful nonterminals only. -/
theorem isReduced_reduce {g : Grammar} (h : g.start ∈ g.generating) :
    g.reduce.isReduced = true := by
  have hreach : ∀ t ∈ g.productive.reachable,
      t ∈ g.productive.reachable ∧ t ∈ g.reduce.reachable := by
    apply reachable_induction
    · exact ⟨g.productive.start_mem_reachable, g.reduce.start_mem_reachable⟩
    · intro m hm body hb t ht
      have hkept := mem_bodies_reduce.mpr ⟨hm.1, hb⟩
      exact ⟨mem_reachable_of_mem_body hm.1 hb ht, mem_reachable_of_mem_body hm.2 hkept ht⟩
  refine isReduced_iff.mpr fun name hn ↦ ?_
  obtain ⟨_, hgen, hn⟩ := mem_nonterminals_reduce.mp hn
  refine ⟨?_, (hreach _ hn).2⟩
  have hgen : name ∈ g.generating := by
    rcases hgen with rfl | hgen
    · exact h
    · exact hgen
  obtain ⟨w, hw⟩ := mem_generating_iff.mp hgen
  exact mem_generating_iff.mpr ⟨w, (language_reduce_iff hn).mpr hw⟩

/-- Without a generating start symbol, reduction leaves no production. -/
theorem rules_reduce_eq_nil {g : Grammar} (h : g.start ∉ g.generating) : g.reduce.rules = [] := by
  rw [List.eq_nil_iff_forall_not_mem]
  rintro ⟨name, body⟩ hr
  exact h (start_mem_generating (mem_rules_iff.mp hr))

/-- Without a generating start symbol, reduction leaves only that symbol. -/
theorem nonterminals_reduce_eq {g : Grammar} (hg : g.WellFormed) (h : g.start ∉ g.generating) :
    g.reduce.nonterminals = [g.start] := by
  have hall : ∀ name ∈ g.reduce.nonterminals, name = g.start := by
    intro name hn
    obtain ⟨_, _, hreach⟩ := mem_nonterminals_reduce.mp hn
    cases eq_start_of_mem_reachable h hreach
    rfl
  have hmem : g.start ∈ g.reduce.nonterminals := hg.reduce.start_mem
  have hnodup : g.reduce.nonterminals.Nodup := g.reduce.productions.nodup_keys
  have hpos := List.length_pos_of_mem hmem
  have hreplicate := List.eq_replicate_of_mem hall
  rw [hreplicate, List.nodup_replicate] at hnodup
  have hlength : g.reduce.nonterminals.length = 1 := by omega
  rw [hreplicate, hlength]
  rfl

/-! ### What takes part in words -/

/-- A token takes part in a word when the start symbol derives a form that has the token and derives
a word. -/
def TakesPart (g : Grammar) (t : Token) : Prop :=
  ∃ form, g.Derives [.nonterminal g.start] form ∧ t ∈ form ∧
    ∃ w : List Char, g.Derives form (w.map .terminal)

/-- The start symbol is generating when the grammar has a word. -/
theorem start_mem_generating_iff {g : Grammar} :
    g.start ∈ g.generating ↔ ∃ w, g.Generates w := by
  simp only [mem_generating_iff, generates_iff]

/-- Among generating nonterminals, the start symbol leads to what takes part in words. -/
theorem mem_reachable_productive_iff {g : Grammar} (h : g.start ∈ g.generating) {t : Token} :
    t ∈ g.productive.reachable ↔ g.TakesPart t := by
  rw [mem_reachable_iff]
  constructor
  · rintro ⟨form, hd, ht⟩
    have hform : ∀ s ∈ form, s ∈ g.productive.reachable := by
      refine hd.mem_reachable fun s hs ↦ ?_
      rw [List.mem_singleton.mp hs]
      exact g.productive.start_mem_reachable
    obtain ⟨w, hw⟩ := Spells.exists_of_forall fun m hm ↦
      mem_generating_iff.mp (mem_generating_of_mem_reachable h (hform _ hm))
    exact ⟨form, hd.of_productive, ht, w,
      derives_iff_yields.mpr (Productions.yields_iff_spells.mpr hw)⟩
  · rintro ⟨form, hd, ht, w, hw⟩
    exact ⟨form, hd.productive hw, ht⟩

/-- The grammar has a word when something takes part in one. -/
theorem TakesPart.start_mem_generating {g : Grammar} {t : Token} (h : g.TakesPart t) :
    g.start ∈ g.generating := by
  obtain ⟨form, hd, _, w, hw⟩ := h
  exact start_mem_generating_iff.mpr ⟨w, hd.trans hw⟩

/-- The terminals that take part in words are their characters. -/
theorem takesPart_terminal_iff {g : Grammar} {c : Char} :
    g.TakesPart (.terminal c) ↔ ∃ w, g.Generates w ∧ c ∈ w := by
  constructor
  · rintro ⟨form, hd, hc, w, hw⟩
    have hspells := Productions.yields_iff_spells.mp (derives_iff_yields.mp hw)
    exact ⟨w, hd.trans hw, hspells.mem_of_terminal_mem hc⟩
  · rintro ⟨w, hw, hc⟩
    exact ⟨_, hw, List.mem_map.mpr ⟨c, hc, rfl⟩, w, .refl _⟩

/-- Reduction keeps the terminals that take part in words. -/
theorem mem_terminals_reduce_iff {g : Grammar} (hg : g.WellFormed) {c : Char} :
    c ∈ g.reduce.terminals ↔ g.TakesPart (.terminal c) := by
  rw [mem_terminals_reduce]
  constructor
  · rintro ⟨_, hstart, hc⟩
    exact (mem_reachable_productive_iff hstart).mp hc
  · intro h
    have hstart := h.start_mem_generating
    obtain ⟨w, hw, hc⟩ := takesPart_terminal_iff.mp h
    exact ⟨hg.mem_terminals (generates_iff.mp hw) hc, hstart,
      (mem_reachable_productive_iff hstart).mpr h⟩

/-- Reduction keeps the nonterminals that take part in words, and the start symbol. -/
theorem mem_nonterminals_reduce_iff {g : Grammar} (hg : g.WellFormed) {name : String} :
    name ∈ g.reduce.nonterminals ↔ name = g.start ∨ g.TakesPart (.nonterminal name) := by
  constructor
  · intro hn
    by_cases hstart : g.start ∈ g.generating
    · obtain ⟨_, _, hreach⟩ := mem_nonterminals_reduce.mp hn
      exact Or.inr ((mem_reachable_productive_iff hstart).mp hreach)
    · rw [nonterminals_reduce_eq hg hstart] at hn
      exact Or.inl (List.mem_singleton.mp hn)
  · rintro (rfl | h)
    · exact hg.reduce.start_mem
    · have hreach := (mem_reachable_productive_iff h.start_mem_generating).mpr h
      have hgen := mem_generating_of_mem_reachable h.start_mem_generating hreach
      obtain ⟨_, body, hb, _⟩ := mem_generating_iff.mp hgen
      exact mem_nonterminals_reduce.mpr
        ⟨Productions.mem_keys_of_mem_bodies hb, Or.inr hgen, hreach⟩

/-- A grammar with words is reduced to useful nonterminals. -/
theorem useful_reduce {g : Grammar} {w : List Char} (hw : g.Generates w) :
    ∀ name ∈ g.reduce.nonterminals, g.reduce.Useful name := by
  have hreduced := isReduced_reduce (start_mem_generating_iff.mpr ⟨w, hw⟩)
  exact fun name hn ↦ useful_iff.mpr (isReduced_iff.mp hreduced name hn)

/-- A grammar without words is reduced to its start symbol. -/
theorem reduce_of_not_generates {g : Grammar} (hg : g.WellFormed) (h : ∀ w, ¬ g.Generates w) :
    g.reduce.nonterminals = [g.reduce.start] ∧ g.reduce.rules = [] ∧
      g.reduce.terminals.toList = [] := by
  have hstart : g.start ∉ g.generating := by
    intro hn
    obtain ⟨w, hw⟩ := start_mem_generating_iff.mp hn
    exact h w hw
  exact ⟨nonterminals_reduce_eq hg hstart, rules_reduce_eq_nil hstart,
    terminals_reduce_eq_nil hstart⟩

/-- Reduction keeps the words of a grammar. If there are any, then each nonterminal that is left
derives a word and occurs in a form that the start symbol derives; what is left besides the start
symbol are the nonterminals that take part in words, and the terminals that are left are the
characters of words. Without words, only the start symbol is left. -/
theorem useful_and_generates_reduce {g : Grammar} (hg : g.WellFormed) :
    (∀ w, g.reduce.Generates w ↔ g.Generates w) ∧
      ((∃ w, g.Generates w) → ∀ name ∈ g.reduce.nonterminals, g.reduce.Useful name) ∧
      (∀ name, name ∈ g.reduce.nonterminals ↔
        name = g.start ∨ g.TakesPart (.nonterminal name)) ∧
      (∀ c, c ∈ g.reduce.terminals ↔ ∃ w, g.Generates w ∧ c ∈ w) ∧
      ((∀ w, ¬ g.Generates w) → g.reduce.nonterminals = [g.reduce.start] ∧
        g.reduce.rules = [] ∧ g.reduce.terminals.toList = []) := by
  refine ⟨fun _ ↦ generates_reduce_iff, ?_, fun _ ↦ mem_nonterminals_reduce_iff hg, fun c ↦ ?_,
    reduce_of_not_generates hg⟩
  · rintro ⟨w, hw⟩
    exact useful_reduce hw
  · rw [mem_terminals_reduce_iff hg, takesPart_terminal_iff]

/-- A grammar with words, with a nonterminal that has none and one to which nothing leads. -/
theorem useful_and_generates_reduce_tangled :
    tangled.WellFormed ∧ tangled.Generates [] ∧
      (∀ w, tangled.reduce.Generates w ↔ tangled.Generates w) ∧
      (∀ name ∈ tangled.reduce.nonterminals, tangled.reduce.Useful name) ∧
      (∀ name, name ∈ tangled.reduce.nonterminals ↔
        name = "S" ∨ tangled.TakesPart (.nonterminal name)) ∧
      ∀ c, c ∈ tangled.reduce.terminals ↔ ∃ w, tangled.Generates w ∧ c ∈ w := by
  have hg : tangled.WellFormed := by decide
  have hempty : tangled.Generates [] := generates_iff.mpr ⟨[], by decide, .nil⟩
  obtain ⟨hwords, huseful, hnonterminals, hterminals, _⟩ := useful_and_generates_reduce hg
  exact ⟨hg, hempty, hwords, huseful ⟨[], hempty⟩, hnonterminals, hterminals⟩

example : tangled.reduce.nonterminals = ["S", "A"] ∧ tangled.reduce.terminals.toList = ['a'] := by
  cbv

end LanguageTheory.Grammar
