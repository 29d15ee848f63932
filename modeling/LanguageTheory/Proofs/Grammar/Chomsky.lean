import LanguageTheory.Proofs.Grammar.Binarization
import LanguageTheory.Proofs.Grammar.Proper

/-!
# Chomsky normal form

When all bodies of a proper grammar are cut, a nonterminal that was made has the words of the
sequence it stands for, and the old nonterminals have their old words. Each nonterminal that was
made stands for a part of an old body, and so it is as useful as the nonterminals of that body.
-/

namespace LanguageTheory.Grammar

namespace Binarization

/-! ### Words of sequences and of what they are cut into -/

/-- The old words of the old nonterminals; the words of a nonterminal that was made are those of the
sequence it stands for. -/
def cutWords (p : Productions) (b : Binarization) (name : String) (w : List Char) : Prop :=
  (name ∈ p.keys → p.Language name w) ∧ ∀ ts, b.Names name ts → Spells p.Language ts w

section Old

variable {p : Productions} {b : Binarization} {ts : Body}

/-- What stands for a sequence spells no more than the sequence. -/
theorem Stands.spells_old {u : Token} (h : b.Stands ts u)
    (hkeys : ∀ name, .nonterminal name ∈ ts → name ∈ p.keys) {w : List Char}
    (hw : Spells (cutWords p b) [u] w) : Spells p.Language ts w := by
  obtain ⟨name, rfl, rfl | hn⟩ := h
  · exact Spells.single_iff.mpr ((Spells.single_iff.mp hw).1 (hkeys name (by simp)))
  · exact (Spells.single_iff.mp hw).2 ts hn

/-- What a sequence is cut into spells no more than the sequence. -/
theorem Cuts.spells_old {body : Body} (h : b.Cuts ts body)
    (hkeys : ∀ name, .nonterminal name ∈ ts → name ∈ p.keys) {w : List Char}
    (hw : Spells (cutWords p b) body w) : Spells p.Language ts w := by
  rcases h with ⟨_, rfl⟩ | ⟨t, u, rest, x, y, rfl, rfl, hx, hy⟩
  · exact hw.mono fun name hm v hv ↦ hv.1 (hkeys name hm)
  · obtain ⟨v, v', rfl, hv, hv'⟩ := Spells.cons_iff.mp hw
    refine Spells.cons_iff.mpr ⟨v, v', rfl, hx.spells_old ?_ hv, hy.spells_old ?_ hv'⟩
    · intro name hm
      rw [List.mem_singleton] at hm
      exact hkeys name (by simp [hm])
    · exact fun name hm ↦ hkeys name (List.mem_cons_of_mem _ hm)

end Old

section New

variable {p : Productions} {b : Binarization} (h : Named p [] b)
include h

/-- The nonterminal that stands for one token spells what the token spells. -/
theorem Named.spells_of_single {t u : Token} (hu : b.Stands [t] u) {w : List Char}
    (hw : Spells b.productions.Language [t] w) : Spells b.productions.Language [u] w := by
  obtain ⟨name, rfl, he | hn⟩ := hu
  · rwa [← he]
  · obtain ⟨body, hb, hc⟩ := h.filled hn List.not_mem_nil
    rcases hc with ⟨_, rfl⟩ | ⟨_, _, _, _, _, he, _⟩
    · exact Spells.single_iff.mpr (Productions.language_of_spells hb hw)
    · cases he

/-- The nonterminal that stands for a sequence spells what the sequence spells. -/
theorem Named.spells_of_stands {ts : Body} {u : Token} (hu : b.Stands ts u) {w : List Char}
    (hw : Spells b.productions.Language ts w) : Spells b.productions.Language [u] w := by
  induction ts generalizing u w with
  | nil =>
    obtain ⟨name, rfl, he | ⟨_, he, _⟩ | ⟨hl, _⟩⟩ := hu
    · cases he
    · cases he
    · simp at hl
  | cons t rest ih =>
    cases rest with
    | nil => exact h.spells_of_single hu hw
    | cons s rest =>
      obtain ⟨name, rfl, he | hn⟩ := hu
      · cases he
      · obtain ⟨body, hb, hc⟩ := h.filled hn List.not_mem_nil
        obtain ⟨x, y, rfl, hx, hy⟩ := hc.of_cons_cons
        obtain ⟨v, v', rfl, hv, hv'⟩ := Spells.cons_iff.mp hw
        have hpair := Spells.cons_iff.mpr ⟨v, v', rfl, h.spells_of_single hx hv, ih hy hv'⟩
        exact Spells.single_iff.mpr (Productions.language_of_spells hb hpair)

/-- What a sequence is cut into spells what the sequence spells. -/
theorem Named.spells_of_cuts {ts body : Body} (hc : b.Cuts ts body) {w : List Char}
    (hw : Spells b.productions.Language ts w) : Spells b.productions.Language body w := by
  rcases hc with ⟨_, rfl⟩ | ⟨t, s, rest, x, y, rfl, rfl, hx, hy⟩
  · exact hw
  · obtain ⟨v, v', rfl, hv, hv'⟩ := Spells.cons_iff.mp hw
    exact Spells.cons_iff.mpr ⟨v, v', rfl, h.spells_of_single hx hv, h.spells_of_stands hy hv'⟩

end New

/-- When nonterminals pass a property on to the tokens of their bodies, and the tokens that a
sequence is cut into have it, then so have the tokens that stand for its parts. -/
theorem Named.exists_stands_of_part {p : Productions} {b : Binarization} (h : Named p [] b)
    {motive : Token → Prop}
    (step : ∀ name, motive (.nonterminal name) → ∀ body ∈ b.productions.bodies name,
      ∀ t ∈ body, motive t)
    {part whole body : Body} (hpart : Part part whole) (hc : b.Cuts whole body)
    (hbody : ∀ t ∈ body, motive t) : ∃ u, b.Stands part u ∧ motive u := by
  induction hpart generalizing body with
  | first t u rest =>
    obtain ⟨x, y, rfl, hx, _⟩ := hc.of_cons_cons
    exact ⟨x, hx, hbody x (by simp)⟩
  | rest t u rest =>
    obtain ⟨x, y, rfl, _, hy⟩ := hc.of_cons_cons
    exact ⟨y, hy, hbody y (by simp)⟩
  | inner t hinner ih =>
    obtain ⟨x, y, rfl, _, n, rfl, he | hn⟩ := hc.of_cons_cons
    · rw [he] at hinner
      cases hinner
    · obtain ⟨next, hnext, hc⟩ := h.filled hn List.not_mem_nil
      exact ih hc (step n (hbody _ (by simp)) next hnext)

/-! ### When all bodies are cut -/

section Cut

variable {p : Productions} {b : Binarization} (h : Cutting p [] b) (hclosed : p.Closed)
include h

/-- Every body of an old nonterminal is what an old body was cut into. -/
theorem Cutting.exists_whole {name : String} {body : Body} (hn : name ∈ p.keys)
    (hb : body ∈ b.productions.bodies name) : ∃ whole ∈ p.bodies name, b.Cuts whole body :=
  (h.cuts hn hb).resolve_left List.not_mem_nil

/-- Every body is what an old body or a part of one was cut into. -/
theorem Cutting.exists_sequence {name : String} {body : Body}
    (hb : body ∈ b.productions.bodies name) :
    ∃ ts, b.Cuts ts body ∧ (ts ∈ p.bodies name ∨ b.Names name ts) := by
  rcases h.named.mem_keys.mp (Productions.mem_keys_of_mem_bodies hb) with hn | ⟨ts, hn⟩
  · obtain ⟨whole, hw, hc⟩ := h.exists_whole hn hb
    exact ⟨whole, hc, Or.inl hw⟩
  · exact ⟨ts, h.named.cuts hn hb, Or.inr hn⟩

/-- The nonterminals of old bodies are used no more than before. -/
theorem Cutting.uses_of_uses {name : String} (hn : name ∈ p.keys)
    (hu : b.productions.Uses (.nonterminal name)) : p.Uses (.nonterminal name) := by
  have hstands : ∀ {ts u}, b.Stands ts u → u = .nonterminal name → .nonterminal name ∈ ts := by
    rintro ts u ⟨m, rfl, rfl | hm⟩ he
    · simp [he]
    · cases he
      exact absurd hn (h.named.fresh hm)
  obtain ⟨head, body, hb, ht⟩ := hu
  obtain ⟨ts, hc, hts⟩ := h.exists_sequence hb
  have hmem : .nonterminal name ∈ ts := by
    rcases hc with ⟨_, rfl⟩ | ⟨t, s, rest, x, y, rfl, rfl, hx, hy⟩
    · exact ht
    · rcases List.mem_cons.mp ht with he | ht
      · have hm := hstands hx he.symm
        rw [List.mem_singleton] at hm
        simp [hm]
      · exact List.mem_cons_of_mem _ (hstands hy (List.mem_singleton.mp ht).symm)
  rcases hts with hts | hts
  · exact .of_mem hts hmem
  · exact (h.named.hasPart hts).uses hmem

include hclosed

/-- Every old body was cut. -/
theorem Cutting.exists_cut {name : String} {whole : Body} (hw : whole ∈ p.bodies name) :
    ∃ body ∈ b.productions.bodies name, b.Cuts whole body := by
  rcases h.filled hw with hm | hcut
  · obtain ⟨old, hold, hc⟩ := h.exists_whole (Productions.mem_keys_of_mem_bodies hw) hm
    obtain rfl := h.named.eq_of_cuts hclosed hw hc
    exact ⟨old, hm, hc⟩
  · exact hcut

/-- Cutting gives no further words. -/
theorem Cutting.cutWords_of_language {name : String} {w : List Char}
    (hw : b.productions.Language name w) : cutWords p b name w := by
  refine Productions.language_induction ?_ hw
  intro n body hb v hv
  constructor
  · intro hn
    obtain ⟨whole, hwhole, hc⟩ := h.exists_whole hn hb
    have hkeys : ∀ m, .nonterminal m ∈ whole → m ∈ p.keys :=
      fun m hm ↦ hclosed m (.of_mem hwhole hm)
    exact Productions.language_of_spells hwhole (hc.spells_old hkeys hv)
  · intro ts hn
    have hkeys : ∀ m, .nonterminal m ∈ ts → m ∈ p.keys :=
      fun m hm ↦ hclosed m ((h.named.hasPart hn).uses hm)
    exact (h.named.cuts hn hb).spells_old hkeys hv

/-- Cutting changes no word of an old nonterminal. -/
theorem Cutting.language_iff {name : String} {w : List Char} (hn : name ∈ p.keys) :
    b.productions.Language name w ↔ p.Language name w := by
  constructor
  · intro hw
    exact (h.cutWords_of_language hclosed hw).1 hn
  · intro hw
    refine Productions.language_induction ?_ hw
    intro m whole hwhole v hv
    obtain ⟨body, hb, hc⟩ := h.exists_cut hclosed hwhole
    exact Productions.language_of_spells hb (h.named.spells_of_cuts hc hv)

/-- Cutting keeps productions closed. -/
theorem Cutting.closed : b.productions.Closed := by
  intro name hu
  by_cases hn : name ∈ p.keys
  · exact h.named.mem_keys.mpr (Or.inl hn)
  · obtain ⟨head, body, hb, ht⟩ := hu
    obtain ⟨ts, hc, hts⟩ := h.exists_sequence hb
    have hold : .nonterminal name ∉ ts := by
      intro hm
      rcases hts with hts | hts
      · exact hn (hclosed name (.of_mem hts hm))
      · exact hn (hclosed name ((h.named.hasPart hts).uses hm))
    have hstands : ∀ {us u}, us ⊆ ts → b.Stands us u → u = .nonterminal name →
        name ∈ b.productions.keys := by
      rintro us u hsub ⟨m, rfl, rfl | hm⟩ he
      · exact absurd (hsub (by simp [he])) hold
      · cases he
        exact h.named.mem_keys.mpr (Or.inr ⟨us, hm⟩)
    rcases hc with ⟨_, rfl⟩ | ⟨t, s, rest, x, y, rfl, rfl, hx, hy⟩
    · exact absurd ht hold
    · rcases List.mem_cons.mp ht with he | ht
      · exact hstands (by simp) hx he.symm
      · exact hstands (by simp) hy (List.mem_singleton.mp ht).symm

end Cut

end Binarization

/-! ### Chomsky normal form -/

/-- The bodies of the proper grammar after all of them were cut. -/
def binarized (g : Grammar) : Binarization :=
  g.toProper.rules.foldl (fun b rule ↦ b.cut rule.1 rule.2)
    { productions := g.toProper.productions, proxies := ∅, suffixes := ∅ }

/-- The Chomsky normal form has the start symbol of the proper grammar. -/
theorem start_toChomsky (g : Grammar) : g.toChomsky.start = g.toProper.start := by
  rw [toChomsky]

/-- The Chomsky normal form has the bodies that were cut. -/
theorem productions_toChomsky (g : Grammar) :
    g.toChomsky.productions = g.binarized.productions := by
  rw [toChomsky, binarized]

/-- The Chomsky normal form has the bodies that were cut. -/
theorem bodies_toChomsky (g : Grammar) (name : String) :
    g.toChomsky.bodies name = g.binarized.productions.bodies name := by
  rw [bodies, productions_toChomsky]

section Cut

variable {g : Grammar} (hg : g.WellFormed)
include hg

/-- The proper grammar is closed. -/
theorem closed_toProper : g.toProper.productions.Closed := (wellFormed_iff.mp hg.toProper).2.1

/-- All bodies of the proper grammar are cut. -/
theorem cutting_binarized : Binarization.Cutting g.toProper.productions [] g.binarized := by
  have hall : ∀ name, ∀ body ∈ g.toProper.productions.bodies name,
      (name, body) ∈ g.toProper.rules := fun name body hb ↦ mem_rules_iff.mpr hb
  apply (Binarization.cutting_start hall).foldl_cut (closed_toProper hg)
  intro name body hr
  exact mem_rules_iff.mp hr

/-- The Chomsky normal form is well formed. -/
theorem WellFormed.toChomsky : g.toChomsky.WellFormed := by
  obtain ⟨hstart, hclosed, hterminals⟩ := wellFormed_iff.mp hg.toProper
  have hcut := cutting_binarized hg
  rw [wellFormed_iff, productions_toChomsky, start_toChomsky]
  refine ⟨hcut.named.mem_keys.mpr (Or.inl hstart), hcut.closed hclosed, ?_⟩
  rintro c ⟨name, body, hb, ht⟩
  obtain ⟨ts, hc, hts⟩ := hcut.exists_sequence hb
  rcases hc with ⟨_, rfl⟩ | ⟨_, _, _, _, _, _, rfl, ⟨m, rfl, _⟩, ⟨n, rfl, _⟩⟩
  · apply hterminals c
    rcases hts with hts | hts
    · exact .of_mem hts ht
    · exact (hcut.named.hasPart hts).uses ht
  · simp at ht

/-- The Chomsky normal form has the same words. -/
theorem generates_toChomsky_iff {w : List Char} : g.toChomsky.Generates w ↔ g.Generates w := by
  obtain ⟨hstart, hclosed, _⟩ := wellFormed_iff.mp hg.toProper
  rw [← generates_toProper_iff hg, generates_iff, generates_iff, productions_toChomsky,
    start_toChomsky]
  exact (cutting_binarized hg).language_iff hclosed hstart

/-- Every body of the Chomsky normal form is a terminal, two nonterminals, or an empty body of the
proper grammar. -/
theorem toChomsky_cases {name : String} {body : Body} (hb : body ∈ g.toChomsky.bodies name) :
    body = [] ∧ [] ∈ g.toProper.bodies name ∨ (∃ c, body = [.terminal c]) ∨
      ∃ m n, body = [.nonterminal m, .nonterminal n] := by
  rw [bodies_toChomsky] at hb
  obtain ⟨ts, hc, hts⟩ := (cutting_binarized hg).exists_sequence hb
  rcases hc with ⟨hl, rfl⟩ | ⟨_, _, _, _, _, _, rfl, ⟨m, rfl, _⟩, ⟨n, rfl, _⟩⟩
  · rcases hts with hts | ⟨c, rfl, _⟩ | ⟨hl', _⟩
    · cases body with
      | nil => exact Or.inl ⟨rfl, hts⟩
      | cons t rest =>
        obtain rfl : rest = [] := List.length_eq_zero_iff.mp (by rw [List.length_cons] at hl; omega)
        cases t with
        | terminal c => exact Or.inr (Or.inl ⟨c, rfl⟩)
        | nonterminal m => exact absurd hts single_notMem_bodies_toProper
    · exact Or.inr (Or.inl ⟨c, rfl⟩)
    · omega
  · exact Or.inr (Or.inr ⟨m, n, rfl⟩)

/-- The Chomsky normal form has the empty body at an unused start symbol only. -/
theorem noncontracting_toChomsky : g.toChomsky.Noncontracting := by
  intro name hb
  rcases toChomsky_cases hg hb with ⟨_, hb⟩ | ⟨_, he⟩ | ⟨_, _, he⟩
  · obtain ⟨rfl, huses⟩ := noncontracting_toProper hg name hb
    rw [start_toChomsky, productions_toChomsky]
    constructor
    · rfl
    · intro hu
      apply huses
      exact (cutting_binarized hg).uses_of_uses (Productions.mem_keys_of_mem_bodies hb) hu
  · cases he
  · cases he

/-! ### Useful nonterminals -/

/-- All parts of what was cut into reachable tokens are reachable. -/
theorem exists_reachable_part {part whole body : Body} (hpart : Part part whole)
    (hc : g.binarized.Cuts whole body) (hreach : ∀ t ∈ body, t ∈ g.toChomsky.reachable) :
    ∃ u, g.binarized.Stands part u ∧ u ∈ g.toChomsky.reachable := by
  refine (cutting_binarized hg).named.exists_stands_of_part ?_ hpart hc hreach
  intro name hn next hnext
  rw [← bodies_toChomsky] at hnext
  exact fun t ht ↦ mem_reachable_of_mem_body hn hnext ht

/-- Nonterminals that were reachable still are. -/
theorem mem_reachable_toChomsky {name : String} (hn : .nonterminal name ∈ g.toProper.reachable) :
    .nonterminal name ∈ g.toChomsky.reachable := by
  have hcut := cutting_binarized hg
  have hall : ∀ t ∈ g.toProper.reachable, ∀ m, t = .nonterminal m →
      .nonterminal m ∈ g.toChomsky.reachable := by
    apply reachable_induction
    · rintro m he
      cases he
      rw [← start_toChomsky]
      exact start_mem_reachable g.toChomsky
    · rintro head hhead whole hwhole t ht m rfl
      obtain ⟨body, hb, hc⟩ := hcut.exists_cut (closed_toProper hg) hwhole
      rw [← bodies_toChomsky] at hb
      have hreach : ∀ s ∈ body, s ∈ g.toChomsky.reachable :=
        fun s hs ↦ mem_reachable_of_mem_body (hhead head rfl) hb hs
      have hparts : ∀ {part}, Part part whole →
          ∃ u, g.binarized.Stands part u ∧ u ∈ g.toChomsky.reachable :=
        fun hp ↦ exists_reachable_part hg hp hc hreach
      rcases hc with ⟨_, rfl⟩ | ⟨s, u, rest, x, y, rfl, _⟩
      · exact hreach _ ht
      · obtain ⟨v, ⟨k, rfl, he | hk⟩, hv⟩ := hparts (Part.singleton ht)
        · rwa [List.singleton_inj.mp he]
        · exact absurd rfl hk.ne_singleton
  exact hall _ hn name rfl

/-- If the nonterminals of the proper grammar are useful, then so are those that were made. -/
theorem isReduced_toChomsky (h : g.toProper.isReduced = true) : g.toChomsky.isReduced = true := by
  have hcut := cutting_binarized hg
  have hclosed := closed_toProper hg
  have hold : ∀ {name}, name ∈ g.toProper.nonterminals →
      (∃ w, g.toChomsky.productions.Language name w) ∧
        .nonterminal name ∈ g.toChomsky.reachable := by
    intro name hn
    obtain ⟨hgen, hreach⟩ := isReduced_iff.mp h name hn
    obtain ⟨w, hw⟩ := mem_generating_iff.mp hgen
    rw [productions_toChomsky]
    exact ⟨⟨w, (hcut.language_iff hclosed hn).mpr hw⟩, mem_reachable_toChomsky hg hreach⟩
  apply isReduced_iff.mpr
  intro name hn
  rw [nonterminals, productions_toChomsky] at hn
  rw [mem_generating_iff]
  rcases hcut.named.mem_keys.mp hn with hn | ⟨ts, hn⟩
  · exact hold hn
  · have hpart := hcut.named.hasPart hn
    obtain ⟨body, hb, hc⟩ := hcut.named.filled hn List.not_mem_nil
    constructor
    · rw [productions_toChomsky] at hold ⊢
      have hwords : ∃ w, Spells g.binarized.productions.Language ts w :=
        Spells.exists_of_forall fun m hm ↦ (hold (hclosed m (hpart.uses hm))).1
      obtain ⟨w, hw⟩ := hwords
      exact ⟨w, Productions.language_of_spells hb (hcut.named.spells_of_cuts hc hw)⟩
    · obtain ⟨head, whole, hwhole, hpart⟩ := hpart
      obtain ⟨new, hnew, hcw⟩ := hcut.exists_cut hclosed hwhole
      rw [← bodies_toChomsky] at hnew
      have hhead := (hold (Productions.mem_keys_of_mem_bodies hwhole)).2
      obtain ⟨u, ⟨m, rfl, he | hm⟩, hu⟩ := exists_reachable_part hg hpart hcw
        fun t ht ↦ mem_reachable_of_mem_body hhead hnew ht
      · exact absurd he hn.ne_singleton
      · rwa [hn.unique hm]

end Cut

/-- Without productions there is nothing to cut. -/
theorem toChomsky_eq_toProper {g : Grammar} (h : g.toProper.rules = []) :
    g.toChomsky = g.toProper := by
  rw [toChomsky, h]
  rfl

/-- The Chomsky normal form is proper. -/
theorem isProper_toChomsky {g : Grammar} (hg : g.WellFormed) : g.toChomsky.isProper = true := by
  refine isProper_iff.mpr ⟨?_, noncontracting_toChomsky hg, ?_⟩
  · intro name body hb
    rcases toChomsky_cases hg hb with ⟨rfl, _⟩ | ⟨_, rfl⟩ | ⟨_, _, rfl⟩
    · rfl
    · rfl
    · rfl
  · rcases isReduced_toProper hg with h | ⟨hrules, hlength⟩
    · exact Or.inl (isReduced_toChomsky hg h)
    · rw [toChomsky_eq_toProper hrules]
      exact Or.inr ⟨hrules, hlength⟩

/-- A grammar is in Chomsky normal form when every body is a terminal, two nonterminals, or the
empty body of an unused start symbol. -/
theorem isChomsky_iff {g : Grammar} :
    g.isChomsky = true ↔ ∀ name, ∀ body ∈ g.bodies name,
      body = [] ∧ name = g.start ∧ ¬ g.productions.Uses (.nonterminal g.start) ∨
        (∃ c, body = [.terminal c]) ∨ ∃ m n, body = [.nonterminal m, .nonterminal n] := by
  unfold isChomsky
  rw [Bool.and_eq_true, isNoncontracting_iff, List.all_eq_true]
  constructor
  · rintro ⟨hempty, hshape⟩ name body hb
    have hbody := hshape (name, body) (mem_rules_iff.mpr hb)
    match body, hb, hbody with
    | [], hb, _ => exact Or.inl ⟨rfl, hempty name hb⟩
    | [.terminal c], _, _ => exact Or.inr (Or.inl ⟨c, rfl⟩)
    | [.nonterminal m, .nonterminal n], _, _ => exact Or.inr (Or.inr ⟨m, n, rfl⟩)
  · intro h
    constructor
    · intro name hb
      rcases h name [] hb with ⟨_, he⟩ | ⟨_, he⟩ | ⟨_, _, he⟩
      · exact he
      · cases he
      · cases he
    · rintro ⟨name, body⟩ hr
      rcases h name body (mem_rules_iff.mp hr) with ⟨rfl, _⟩ | ⟨_, rfl⟩ | ⟨_, _, rfl⟩
      · rfl
      · rfl
      · rfl

/-- Every grammar has the words of its Chomsky normal form, which is proper, and in which every body
is a terminal, two nonterminals, or the empty body of a start symbol that occurs in no body. -/
theorem toChomsky_correct {g : Grammar} (hg : g.WellFormed) :
    g.toChomsky.isChomsky = true ∧
      (∀ name, ∀ body ∈ g.toChomsky.bodies name,
        body = [] ∧ name = g.toChomsky.start ∧
            ¬ g.toChomsky.productions.Uses (.nonterminal g.toChomsky.start) ∨
          (∃ c, body = [.terminal c]) ∨ ∃ m n, body = [.nonterminal m, .nonterminal n]) ∧
        g.toChomsky.isProper = true ∧ ∀ w, g.toChomsky.Generates w ↔ g.Generates w := by
  have hform : ∀ name, ∀ body ∈ g.toChomsky.bodies name,
      body = [] ∧ name = g.toChomsky.start ∧
          ¬ g.toChomsky.productions.Uses (.nonterminal g.toChomsky.start) ∨
        (∃ c, body = [.terminal c]) ∨ ∃ m n, body = [.nonterminal m, .nonterminal n] := by
    intro name body hb
    rcases toChomsky_cases hg hb with ⟨rfl, _⟩ | hbody
    · exact Or.inl ⟨rfl, noncontracting_toChomsky hg name hb⟩
    · exact Or.inr hbody
  exact ⟨isChomsky_iff.mpr hform, hform, isProper_toChomsky hg,
    fun w ↦ generates_toChomsky_iff hg⟩

/-- A grammar with nonterminals that are named like those for terminals and ends of bodies:
`S: ab<[ab]> | ba<[ab]>` and `[ab]: [a]b | ε` and `[a]: a`. -/
def bracketNames : Grammar where
  start := "S"
  terminals := .ofSet (.ofList ['a', 'b'])
  productions := .ofList [
    ("S", .ofList [[.terminal 'a', .terminal 'b', .nonterminal "[ab]"],
      [.terminal 'b', .terminal 'a', .nonterminal "[ab]"]]),
    ("[ab]", .ofList [[.nonterminal "[a]", .terminal 'b'], []]),
    ("[a]", .ofList [[.terminal 'a']])]

/-- Nonterminals that are named like new ones do not stand in the way of the Chomsky normal form. -/
theorem toChomsky_correct_bracketNames :
    bracketNames.WellFormed ∧ bracketNames.toChomsky.isChomsky = true ∧
      (∀ name, ∀ body ∈ bracketNames.toChomsky.bodies name,
        body = [] ∧ name = bracketNames.toChomsky.start ∧
            ¬ bracketNames.toChomsky.productions.Uses (.nonterminal bracketNames.toChomsky.start) ∨
          (∃ c, body = [.terminal c]) ∨ ∃ m n, body = [.nonterminal m, .nonterminal n]) ∧
        bracketNames.toChomsky.isProper = true ∧
          ∀ w, bracketNames.toChomsky.Generates w ↔ bracketNames.Generates w :=
  ⟨by decide, toChomsky_correct (by decide)⟩

end LanguageTheory.Grammar
