import LanguageTheory.Proofs.Grammar.Chomsky
import Mathlib.Algebra.BigOperators.Group.List.Basic
import Mathlib.Combinatorics.Enumerative.DoubleCounting

/-!
# Size of the Chomsky normal form

Cutting the bodies of a proper grammar makes one nonterminal for each terminal of a body of two or
more tokens and one for each sequence of two or more tokens with which a longer body ends, however
often these occur. A nonterminal that was made has the one body that its sequence is cut into. No
two bodies are cut into the same, so the old nonterminals have as many bodies as before.
-/

namespace LanguageTheory

/-- Two lists without repetition are equally long when a relation matches their elements one to
one. -/
theorem length_eq_of_matching {α β : Type} {R : α → β → Prop} {xs : List α} {ys : List β}
    (hxs : xs.Nodup) (hys : ys.Nodup) (hright : ∀ x ∈ xs, ∃ y ∈ ys, R x y)
    (hleft : ∀ y ∈ ys, ∃ x ∈ xs, R x y)
    (hinj : ∀ x ∈ xs, ∀ x' ∈ xs, ∀ y ∈ ys, R x y → R x' y → x = x')
    (huniq : ∀ x ∈ xs, ∀ y ∈ ys, ∀ y' ∈ ys, R x y → R x y' → y = y') :
    xs.length = ys.length := by
  classical
  rw [← List.toFinset_card_of_nodup hxs, ← List.toFinset_card_of_nodup hys]
  apply Nat.le_antisymm
  · refine Finset.card_le_card_of_forall_subsingleton R ?_ ?_
    · simpa using hright
    · rintro y hy x ⟨hx, hxy⟩ x' ⟨hx', hxy'⟩
      rw [List.mem_toFinset] at hx hx' hy
      exact hinj x hx x' hx' y hy hxy hxy'
  · refine Finset.card_le_card_of_forall_subsingleton' R ?_ ?_
    · simpa using hleft
    · rintro x hx y ⟨hy, hxy⟩ y' ⟨hy', hxy'⟩
      rw [List.mem_toFinset] at hx hy hy'
      exact huniq x hx y hy y' hy' hxy hxy'

/-- A list without repetition has the elements of another one and those that this one lacks. -/
theorem perm_append_filter {α : Type} [DecidableEq α] {xs ys : List α} (hxs : xs.Nodup)
    (hys : ys.Nodup) (h : ys ⊆ xs) : xs.Perm (ys ++ xs.filter (· ∉ ys)) := by
  refine (List.perm_ext_iff_of_nodup hxs ?_).mpr fun x ↦ ?_
  · refine List.nodup_append.mpr ⟨hys, hxs.filter _, fun x hx y hy he ↦ ?_⟩
    have hy := (List.mem_filter.mp hy).2
    rw [decide_eq_true_eq, ← he] at hy
    exact hy hx
  · rw [List.mem_append, List.mem_filter, decide_eq_true_eq]
    by_cases hx : x ∈ ys
    · simp [hx, h hx]
    · simp [hx]

namespace Grammar

/-! ### Parts that get nonterminals -/

/-- The terminals that occur in bodies of two or more tokens. -/
def longTerminals (g : Grammar) : OrderedSet Char :=
  g.terminals.chars.filter fun c ↦
    g.rules.any fun (_, body) ↦ 2 ≤ body.length && body.contains (.terminal c)

/-- The sequences of two or more tokens with which longer bodies end. -/
def longSuffixes (g : Grammar) : OrderedSet Body :=
  OrderedSet.ofList (g.rules.flatMap fun (_, body) ↦ body.tail.tails.filter (2 ≤ ·.length))

/-- A terminal of a body of two or more tokens. -/
theorem mem_longTerminals_iff {g : Grammar} (hg : g.WellFormed) {c : Char} :
    c ∈ g.longTerminals ↔
      ∃ name, ∃ body ∈ g.bodies name, 2 ≤ body.length ∧ .terminal c ∈ body := by
  unfold longTerminals
  simp only [OrderedSet.mem_filter, List.any_eq_true, Prod.exists, mem_rules_iff,
    Bool.and_eq_true, decide_eq_true_eq, List.contains_iff_mem]
  constructor
  · rintro ⟨_, name, body, hb, hbody⟩
    exact ⟨name, body, hb, hbody⟩
  · rintro ⟨name, body, hb, hl, hc⟩
    exact ⟨(wellFormed_iff.mp hg).2.2 c (.of_mem hb hc), name, body, hb, hl, hc⟩

/-- A sequence of two or more tokens that is the end of a body, but not the whole body. -/
theorem mem_longSuffixes_iff {g : Grammar} {ts : Body} :
    ts ∈ g.longSuffixes ↔
      2 ≤ ts.length ∧ ∃ name, ∃ body ∈ g.bodies name, ts <:+ body ∧ ts ≠ body := by
  unfold longSuffixes
  simp only [OrderedSet.mem_ofList, List.mem_flatMap, Prod.exists, mem_rules_iff,
    List.mem_filter, List.mem_tails, decide_eq_true_eq]
  constructor
  · rintro ⟨name, body, hb, hsuffix, hl⟩
    refine ⟨hl, name, body, hb, hsuffix.trans (List.tail_suffix body), ?_⟩
    rintro rfl
    have hle := hsuffix.length_le
    rw [List.length_tail] at hle
    omega
  · rintro ⟨hl, name, body, hb, hsuffix, hne⟩
    refine ⟨name, body, hb, ?_, hl⟩
    cases body with
    | nil => exact hsuffix
    | cons t rest => exact (List.suffix_cons_iff.mp hsuffix).resolve_left hne

namespace Part

variable {part body : Body}

/-- Only bodies of two or more tokens have parts. -/
theorem two_le_length (h : Part part body) : 2 ≤ body.length := by
  cases h <;> simp

/-- Parts have tokens. -/
theorem ne_nil (h : Part part body) : part ≠ [] := by
  induction h with
  | first => exact List.cons_ne_nil _ _
  | rest => exact List.cons_ne_nil _ _
  | inner _ _ ih => exact ih

/-- A part of two or more tokens is the end of the body. -/
theorem suffix_tail (h : Part part body) (hl : 2 ≤ part.length) : part <:+ body.tail := by
  induction h with
  | first => simp at hl
  | rest t u rest => exact List.suffix_refl _
  | inner t _ ih => exact (ih hl).trans (List.suffix_cons _ _)

/-- The ends of a body are parts of it. -/
theorem of_suffix {t : Token} {rest : Body} (hne : part ≠ []) (h : part <:+ rest) :
    Part part (t :: rest) := by
  induction rest generalizing t with
  | nil => exact absurd (List.suffix_nil.mp h) hne
  | cons u rest ih =>
    rcases List.suffix_cons_iff.mp h with rfl | h
    · exact .rest t u rest
    · exact .inner t (ih h)

/-- Every token of a body of two or more tokens is a part by itself. -/
theorem of_mem {t : Token} (hl : 2 ≤ body.length) (ht : t ∈ body) : Part [t] body := by
  match body, hl, ht with
  | _ :: _ :: _, _, ht => exact singleton ht

end Part

/-- The sequences of tokens that get nonterminals of their own. -/
def namedParts (g : Grammar) : List Body :=
  g.longTerminals.toList.map (fun c ↦ [.terminal c]) ++ g.longSuffixes.toList

/-- There is one sequence for each terminal and one for each end of a body. -/
theorem length_namedParts (g : Grammar) :
    g.namedParts.length = g.longTerminals.size + g.longSuffixes.size := by
  rw [namedParts, List.length_append, List.length_map]
  rfl

/-- Each sequence is listed once. -/
theorem nodup_namedParts (g : Grammar) : g.namedParts.Nodup := by
  refine List.nodup_append.mpr ⟨?_, g.longSuffixes.nodup, ?_⟩
  · refine g.longTerminals.nodup.map fun c d he ↦ ?_
    cases he
    rfl
  · rintro _ hc ts hts rfl
    obtain ⟨c, _, rfl⟩ := List.mem_map.mp hc
    have hl := (mem_longSuffixes_iff.mp hts).1
    simp at hl

/-- The sequences are the parts of bodies, except for nonterminals by themselves. -/
theorem mem_namedParts_iff {g : Grammar} (hg : g.WellFormed) {ts : Body} :
    ts ∈ g.namedParts ↔ g.productions.HasPart ts ∧ ∀ name, ts ≠ [.nonterminal name] := by
  rw [namedParts, List.mem_append, List.mem_map]
  constructor
  · rintro (⟨c, hc, rfl⟩ | hts)
    · obtain ⟨name, body, hb, hl, ht⟩ := (mem_longTerminals_iff hg).mp hc
      exact ⟨⟨name, body, hb, .of_mem hl ht⟩, by simp⟩
    · obtain ⟨hl, name, body, hb, hsuffix, hne⟩ := mem_longSuffixes_iff.mp hts
      have hts : ts ≠ [] := List.ne_nil_of_length_pos (by omega)
      refine ⟨⟨name, body, hb, ?_⟩, ?_⟩
      · cases body with
        | nil => exact absurd (List.suffix_nil.mp hsuffix) hts
        | cons t rest => exact .of_suffix hts ((List.suffix_cons_iff.mp hsuffix).resolve_left hne)
      · rintro m rfl
        simp at hl
  · rintro ⟨⟨name, body, hb, hpart⟩, hne⟩
    match ts, hpart, hne with
    | [], hpart, _ => exact absurd rfl hpart.ne_nil
    | [.terminal c], hpart, _ =>
      refine Or.inl ⟨c, (mem_longTerminals_iff hg).mpr ⟨name, body, hb, ?_⟩, rfl⟩
      exact ⟨hpart.two_le_length, hpart.subset (by simp)⟩
    | [.nonterminal m], _, hne => exact absurd rfl (hne m)
    | t :: u :: rest, hpart, _ =>
      have hl : 2 ≤ (t :: u :: rest).length := by simp
      refine Or.inr (mem_longSuffixes_iff.mpr ⟨hl, name, body, hb, ?_, ?_⟩)
      · exact (hpart.suffix_tail hl).trans (List.tail_suffix body)
      · rintro rfl
        have hle := (hpart.suffix_tail hl).length_le
        simp at hle

/-- Each body of a nonterminal is listed once. -/
theorem Productions.nodup_bodies (p : Productions) (name : String) : (p.bodies name).Nodup :=
  (p.getD name ∅).nodup

namespace Binarization

/-! ### What is cut into what -/

variable {p : Productions} {b : Binarization} {ts us body body' : Body} {u u' : Token}

/-- One token at most stands for a sequence. -/
theorem Stands.unique (h : b.Stands ts u) (h' : b.Stands ts u') : u = u' := by
  obtain ⟨m, rfl, hm⟩ := h
  obtain ⟨n, rfl, hn⟩ := h'
  rcases hm with rfl | hm
  · rcases hn with he | hn
    · exact List.singleton_inj.mp he
    · exact absurd rfl hn.ne_singleton
  · rcases hn with rfl | hn
    · exact absurd rfl hm.ne_singleton
    · rw [hm.unique hn]

/-- A sequence is cut into one body at most. -/
theorem Cuts.unique (h : b.Cuts ts body) (h' : b.Cuts ts body') : body = body' := by
  rcases h with ⟨hl, rfl⟩ | ⟨t, u, rest, x, y, rfl, rfl, hx, hy⟩
  · rcases h' with ⟨_, rfl⟩ | ⟨t, u, rest, x, y, rfl, _⟩
    · rfl
    · rw [List.length_cons, List.length_cons] at hl
      omega
  · obtain ⟨x', y', rfl, hx', hy'⟩ := h'.of_cons_cons
    rw [hx.unique hx', hy.unique hy']

section Named

variable {pending : List Body} (h : Named p pending b)
  (hts : ∀ name, .nonterminal name ∈ ts → name ∈ p.keys)
  (hus : ∀ name, .nonterminal name ∈ us → name ∈ p.keys)
include h hts hus

/-- A token stands for one sequence of old tokens at most. -/
theorem Named.eq_of_stands (ht : b.Stands ts u) (hu : b.Stands us u) : ts = us := by
  obtain ⟨m, rfl, hm⟩ := ht
  obtain ⟨n, he, hn⟩ := hu
  cases he
  rcases hm with rfl | hm
  · rcases hn with rfl | hn
    · rfl
    · exact absurd (hts m (by simp)) (h.fresh hn)
  · rcases hn with rfl | hn
    · exact absurd (hus m (by simp)) (h.fresh hm)
    · exact h.injective hm hn

/-- One sequence of old tokens at most is cut into a body. -/
theorem Named.eq_of_cuts_of_cuts (ht : b.Cuts ts body) (hu : b.Cuts us body) : ts = us := by
  rcases ht with ⟨hl, rfl⟩ | ⟨t, s, rest, x, y, rfl, rfl, hx, hy⟩
  · rcases hu with ⟨_, rfl⟩ | ⟨_, _, _, _, _, _, rfl, _⟩
    · rfl
    · simp at hl
  · rcases hu with ⟨hl, rfl⟩ | ⟨t', s', rest', x', y', rfl, he, hx', hy'⟩
    · simp at hl
    · cases he
      have hfirst : [t] = [t'] := by
        refine h.eq_of_stands (fun m hm ↦ hts m ?_) (fun m hm ↦ hus m ?_) hx hx'
        · simp [List.mem_singleton.mp hm]
        · simp [List.mem_singleton.mp hm]
      have hrest : s :: rest = s' :: rest' := by
        refine h.eq_of_stands (fun m hm ↦ hts m ?_) (fun m hm ↦ hus m ?_) hy hy'
        · exact List.mem_cons_of_mem _ hm
        · exact List.mem_cons_of_mem _ hm
      rw [List.singleton_inj.mp hfirst, hrest]

end Named

section Cut

variable (h : Cutting p [] b)
include h

/-- A nonterminal that was made has one body. -/
theorem Cutting.bodies_of_names {name : String} (hn : b.Names name ts) :
    ∃ body, b.productions.bodies name = [body] := by
  obtain ⟨body, hb, hc⟩ := h.named.filled hn List.not_mem_nil
  have hnodup := Productions.nodup_bodies b.productions name
  refine ⟨body, List.perm_singleton.mp ?_⟩
  refine (List.perm_ext_iff_of_nodup hnodup (List.nodup_singleton body)).mpr fun other ↦ ?_
  rw [List.mem_singleton]
  constructor
  · exact fun ho ↦ (h.named.cuts hn ho).unique hc
  · rintro rfl
    exact hb

variable (hclosed : p.Closed)
include hclosed

/-- An old nonterminal has as many bodies as before. -/
theorem Cutting.length_bodies {name : String} (hn : name ∈ p.keys) :
    (b.productions.bodies name).length = (p.bodies name).length := by
  have hkeys : ∀ whole ∈ p.bodies name, ∀ m, .nonterminal m ∈ whole → m ∈ p.keys :=
    fun whole hw m hm ↦ hclosed m (.of_mem hw hm)
  have hmatch : (p.bodies name).length = (b.productions.bodies name).length := by
    refine length_eq_of_matching (R := b.Cuts) (p.nodup_bodies name)
      (Productions.nodup_bodies b.productions name) ?_ ?_ ?_ ?_
    · exact fun whole hw ↦ h.exists_cut hclosed hw
    · exact fun body hb ↦ h.exists_whole hn hb
    · exact fun whole hw other ho body _ hc hc' ↦
        h.named.eq_of_cuts_of_cuts (hkeys whole hw) (hkeys other ho) hc hc'
    · exact fun whole _ body _ other _ hc hc' ↦ hc.unique hc'
  exact hmatch.symm

/-- Every part of an old body that is not a nonterminal by itself has a nonterminal. -/
theorem Cutting.exists_names {part : Body} (hpart : p.HasPart part)
    (hne : ∀ m, part ≠ [.nonterminal m]) : ∃ name, b.Names name part := by
  obtain ⟨head, whole, hw, hpart⟩ := hpart
  obtain ⟨body, _, hc⟩ := h.exists_cut hclosed hw
  obtain ⟨u, ⟨name, rfl, he | hn⟩, _⟩ := h.named.exists_stands_of_part (motive := fun _ ↦ True)
    (fun _ _ _ _ _ _ ↦ trivial) hpart hc fun _ _ ↦ trivial
  · exact absurd he (hne name)
  · exact ⟨name, hn⟩

/-- The nonterminals are the old ones, and one for each part that gets one. -/
theorem Cutting.length_made {parts : List Body} (hparts : parts.Nodup)
    (hmem : ∀ ts, ts ∈ parts ↔ p.HasPart ts ∧ ∀ m, ts ≠ [.nonterminal m]) :
    (b.productions.keys.filter (· ∉ p.keys)).length = parts.length := by
  have hmade : ∀ name, name ∈ b.productions.keys.filter (· ∉ p.keys) ↔ ∃ ts, b.Names name ts := by
    intro name
    rw [List.mem_filter, h.named.mem_keys, decide_eq_true_eq]
    constructor
    · rintro ⟨hn | hn, hnew⟩
      · exact absurd hn hnew
      · exact hn
    · rintro ⟨ts, hn⟩
      exact ⟨Or.inr ⟨ts, hn⟩, h.named.fresh hn⟩
  refine length_eq_of_matching (R := b.Names) (b.productions.nodup_keys.filter _) hparts ?_ ?_ ?_ ?_
  · intro name hn
    obtain ⟨ts, hn⟩ := (hmade name).mp hn
    exact ⟨ts, (hmem ts).mpr ⟨h.named.hasPart hn, fun m ↦ hn.ne_singleton⟩, hn⟩
  · intro ts hts
    obtain ⟨hpart, hne⟩ := (hmem ts).mp hts
    obtain ⟨name, hn⟩ := h.exists_names hclosed hpart hne
    exact ⟨name, (hmade name).mpr ⟨ts, hn⟩, hn⟩
  · exact fun name _ other _ ts _ hn hn' ↦ hn.unique hn'
  · exact fun name _ ts _ us _ hn hn' ↦ h.named.injective hn hn'

end Cut

end Binarization

/-! ### Counting -/

/-- The rules are counted by their heads. -/
theorem length_rules (g : Grammar) :
    g.rules.length = (g.nonterminals.map fun name ↦ (g.bodies name).length).sum := by
  rw [rules, List.length_flatMap, nonterminals, Table.keys, List.map_map]
  refine congrArg List.sum (List.map_congr_left fun e he ↦ ?_)
  obtain ⟨head, bodies⟩ := e
  have hbodies : g.bodies head = bodies.toList :=
    Productions.bodies_of_get? (Table.get?_eq_some_iff.mpr he)
  rw [Function.comp_apply, hbodies, List.length_map]

/-- The nonterminals of the Chomsky normal form that the proper grammar does not have. -/
def madeNonterminals (g : Grammar) : List String :=
  g.toChomsky.nonterminals.filter (· ∉ g.toProper.nonterminals)

section Chomsky

variable {g : Grammar} (hg : g.WellFormed)
include hg

/-- A nonterminal that was made has one body. -/
theorem exists_bodies_toChomsky_eq {name : String} (hn : name ∈ g.toChomsky.nonterminals)
    (hnew : name ∉ g.toProper.nonterminals) : ∃ body, g.toChomsky.bodies name = [body] := by
  have hcut := cutting_binarized hg
  rw [nonterminals, productions_toChomsky, hcut.named.mem_keys] at hn
  obtain ⟨ts, hn⟩ := hn.resolve_left hnew
  exact hcut.bodies_of_names hn

/-- An old nonterminal has as many bodies as in the proper grammar. -/
theorem length_bodies_toChomsky {name : String} (hn : name ∈ g.toProper.nonterminals) :
    (g.toChomsky.bodies name).length = (g.toProper.bodies name).length := by
  rw [bodies_toChomsky]
  exact (cutting_binarized hg).length_bodies (closed_toProper hg) hn

/-- The nonterminals of the proper grammar are kept. -/
theorem nonterminals_toProper_subset : g.toProper.nonterminals ⊆ g.toChomsky.nonterminals := by
  intro name hn
  rw [nonterminals, productions_toChomsky]
  exact (cutting_binarized hg).named.mem_keys.mpr (Or.inl hn)

/-- One nonterminal was made for each terminal of a body of two or more tokens and for each end of
a longer body. -/
theorem length_madeNonterminals :
    g.madeNonterminals.length = g.toProper.longTerminals.size + g.toProper.longSuffixes.size := by
  have hmade := (cutting_binarized hg).length_made (closed_toProper hg) g.toProper.nodup_namedParts
    fun ts ↦ mem_namedParts_iff hg.toProper
  rw [← productions_toChomsky, length_namedParts] at hmade
  exact hmade

/-- The nonterminals that were made have as many bodies as they are. -/
theorem sum_madeNonterminals :
    (g.madeNonterminals.map fun name ↦ (g.toChomsky.bodies name).length).sum =
      g.madeNonterminals.length := by
  have hone : ∀ name ∈ g.madeNonterminals, (g.toChomsky.bodies name).length = 1 := by
    intro name hn
    obtain ⟨hn, hnew⟩ := List.mem_filter.mp hn
    obtain ⟨body, hbody⟩ := exists_bodies_toChomsky_eq hg hn (decide_eq_true_eq.mp hnew)
    rw [hbody, List.length_singleton]
  rw [List.map_congr_left hone, List.map_const', List.sum_replicate_nat, Nat.mul_one]

/-- The nonterminals are those of the proper grammar and those that were made. -/
theorem nonterminals_toChomsky_perm :
    g.toChomsky.nonterminals.Perm (g.toProper.nonterminals ++ g.madeNonterminals) :=
  perm_append_filter g.toChomsky.productions.nodup_keys g.toProper.productions.nodup_keys
    (nonterminals_toProper_subset hg)

/-- Cutting the bodies of the proper grammar shares the nonterminals for equal parts: there is one
more nonterminal, with one body, for each terminal of a body of two or more tokens and for each
sequence of two or more tokens with which a longer body ends, and every nonterminal of the proper
grammar keeps the number of its bodies. -/
theorem length_nonterminals_and_rules_toChomsky :
    g.toChomsky.nonterminals.length = g.toProper.nonterminals.length +
        g.toProper.longTerminals.size + g.toProper.longSuffixes.size ∧
      g.toChomsky.rules.length = g.toProper.rules.length +
        g.toProper.longTerminals.size + g.toProper.longSuffixes.size ∧
      (∀ name ∈ g.toChomsky.nonterminals, name ∉ g.toProper.nonterminals →
        ∃ body, g.toChomsky.bodies name = [body]) ∧
      ∀ name ∈ g.toProper.nonterminals, name ∈ g.toChomsky.nonterminals ∧
        (g.toChomsky.bodies name).length = (g.toProper.bodies name).length := by
  have hperm := nonterminals_toChomsky_perm hg
  refine ⟨?_, ?_, fun name ↦ exists_bodies_toChomsky_eq hg, fun name hn ↦ ?_⟩
  · rw [hperm.length_eq, List.length_append, length_madeNonterminals hg, Nat.add_assoc]
  · have hold : g.toProper.nonterminals.map (fun name ↦ (g.toChomsky.bodies name).length) =
        g.toProper.nonterminals.map fun name ↦ (g.toProper.bodies name).length :=
      List.map_congr_left fun name hn ↦ length_bodies_toChomsky hg hn
    rw [length_rules, (hperm.map _).sum_eq, List.map_append, List.sum_append, hold,
      ← length_rules, sum_madeNonterminals hg, length_madeNonterminals hg, Nat.add_assoc]
  · exact ⟨nonterminals_toProper_subset hg hn, length_bodies_toChomsky hg hn⟩

end Chomsky

/-- A grammar with bodies that end alike: `S: aTb | bTb | c` and `T: SSTb | ST` and
`ST: cb<ST> | a`. -/
def commonEnds : Grammar where
  start := "S"
  terminals := .ofSet (.ofList ['a', 'b', 'c'])
  productions := .ofList [
    ("S", .ofList [[.terminal 'a', .nonterminal "T", .terminal 'b'],
      [.terminal 'b', .nonterminal "T", .terminal 'b'], [.terminal 'c']]),
    ("T", .ofList [[.nonterminal "S", .nonterminal "S", .nonterminal "T", .terminal 'b'],
      [.nonterminal "ST"]]),
    ("ST", .ofList [[.terminal 'c', .terminal 'b', .nonterminal "ST"], [.terminal 'a']])]

/-- One nonterminal stands for the end of three bodies, and another for an end that two bodies of
different nonterminals have once `ST` is put in place of itself. -/
theorem length_toChomsky_commonEnds :
    commonEnds.WellFormed ∧
      commonEnds.toChomsky.nonterminals.length = commonEnds.toProper.nonterminals.length +
          commonEnds.toProper.longTerminals.size + commonEnds.toProper.longSuffixes.size ∧
        commonEnds.toChomsky.rules.length = commonEnds.toProper.rules.length +
          commonEnds.toProper.longTerminals.size + commonEnds.toProper.longSuffixes.size ∧
        (∀ name ∈ commonEnds.toChomsky.nonterminals, name ∉ commonEnds.toProper.nonterminals →
          ∃ body, commonEnds.toChomsky.bodies name = [body]) ∧
        ∀ name ∈ commonEnds.toProper.nonterminals, name ∈ commonEnds.toChomsky.nonterminals ∧
          (commonEnds.toChomsky.bodies name).length = (commonEnds.toProper.bodies name).length :=
  ⟨by decide, length_nonterminals_and_rules_toChomsky (by decide)⟩

-- `Tb` ends three bodies, and `b<ST>` ends two
example : commonEnds.toProper.longTerminals.toList = ['a', 'b', 'c'] ∧
    commonEnds.toProper.longSuffixes.toList =
      [[.nonterminal "T", .terminal 'b'],
        [.nonterminal "S", .nonterminal "T", .terminal 'b'],
        [.terminal 'b', .nonterminal "ST"]] := by
  cbv

end Grammar

end LanguageTheory
