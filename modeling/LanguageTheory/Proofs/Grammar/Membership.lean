import LanguageTheory.Grammar.Membership
import LanguageTheory.Proofs.Grammar.Yield
import LanguageTheory.Proofs.Search.Reachability
import Mathlib.Data.List.Permutation

/-!
# Spans and what they stand for

The spans of a word that the rounds find are those whose stretch of the word is a word of their
nonterminal. No span is found without a reason, because each follows from known ones by a body; none
is missed, because the last round finds nothing new.
-/

namespace LanguageTheory.Grammar

/-- The stretch of a word between two positions. -/
def Stretch (w : List Char) (i j : Nat) (v : List Char) : Prop :=
  ∃ before after, w = before ++ v ++ after ∧ before.length = i ∧ before.length + v.length = j

namespace Stretch

variable {w u v : List Char} {i j k : Nat}

/-- The ends of a stretch are positions of the word in order. -/
theorem le (h : Stretch w i j v) : i ≤ j ∧ j ≤ w.length := by
  obtain ⟨before, after, rfl, rfl, rfl⟩ := h
  simp only [List.length_append]
  omega

/-- Nothing stands between a position and itself. -/
theorem nil_iff : Stretch w i j [] ↔ j = i ∧ i ≤ w.length := by
  constructor
  · rintro ⟨before, after, rfl, rfl, rfl⟩
    simp
  · rintro ⟨rfl, h⟩
    exact ⟨w.take j, w.drop j, by simp, by simp [h], by simp [h]⟩

/-- Between a position and the next one stands the character at the position. -/
theorem singleton_iff {c : Char} : Stretch w i j [c] ↔ j = i + 1 ∧ w[i]? = some c := by
  constructor
  · rintro ⟨before, after, rfl, rfl, rfl⟩
    simp
  · rintro ⟨rfl, h⟩
    obtain ⟨hi, rfl⟩ := List.getElem?_eq_some_iff.mp h
    refine ⟨w.take i, w.drop (i + 1), ?_, ?_, ?_⟩
    · rw [List.append_assoc, List.singleton_append, List.getElem_cons_drop, List.take_append_drop]
    · rw [List.length_take]
      omega
    · rw [List.length_take, List.length_singleton]
      omega

/-- A stretch can be divided, and neighbouring stretches make one stretch. -/
theorem append_iff : Stretch w i k (u ++ v) ↔ ∃ j, Stretch w i j u ∧ Stretch w j k v := by
  constructor
  · rintro ⟨before, after, rfl, rfl, rfl⟩
    refine ⟨before.length + u.length, ⟨before, v ++ after, by simp, rfl, rfl⟩,
      ⟨before ++ u, after, by simp, by simp, ?_⟩⟩
    rw [List.length_append, List.length_append, Nat.add_assoc]
  · rintro ⟨j, ⟨before, after, rfl, rfl, rfl⟩, before', after', he, hb, rfl⟩
    have hlength : (before ++ u).length = before'.length := by
      rw [List.length_append]
      exact hb.symm
    rw [List.append_assoc before'] at he
    obtain ⟨hbefore, rfl⟩ := List.append_inj he hlength
    subst hbefore
    refine ⟨before, after', by simp, rfl, ?_⟩
    rw [List.length_append, List.length_append, Nat.add_assoc]

/-- The whole word stands between its ends. -/
theorem whole_iff : Stretch w 0 w.length v ↔ v = w := by
  constructor
  · rintro ⟨before, after, he, hb, hv⟩
    rw [List.length_eq_zero_iff] at hb
    subst hb
    rw [List.nil_append] at he
    have hlength := congrArg List.length he
    rw [List.length_append] at hlength
    have hafter : after = [] := by
      rw [← List.length_eq_zero_iff]
      simp at hv
      omega
    rw [he, hafter, List.append_nil]
  · rintro rfl
    exact ⟨[], [], by simp, rfl, by simp⟩

end Stretch

/-- A span is right when its stretch is a word of its nonterminal. -/
def Span.Right (g : Grammar) (w : List Char) (s : Span) : Prop :=
  ∃ v, Stretch w s.first s.last v ∧ g.productions.Language s.name v

/-- A right span is that of a nonterminal. -/
theorem Span.Right.name_mem {g : Grammar} {w : List Char} {s : Span} (h : s.Right g w) :
    s.name ∈ g.nonterminals := by
  obtain ⟨_, _, body, hbody, _⟩ := h
  exact Productions.mem_keys_of_mem_bodies hbody

/-! ### What follows from known spans -/

/-- By known spans, a body leads from one position of a word to another. -/
inductive Leads (known : Span → Prop) (w : List Char) : Body → Nat → Nat → Prop where
  | nil (i : Nat) : Leads known w [] i i
  | terminal {c : Char} {body : Body} {i j : Nat} :
      w[i]? = some c → Leads known w body (i + 1) j → Leads known w (.terminal c :: body) i j
  | nonterminal {name : String} {body : Body} {i j k : Nat} :
      known ⟨name, i, j⟩ → Leads known w body j k → Leads known w (.nonterminal name :: body) i k

/-- Spans are closed when they have the span of every body that leads somewhere. -/
def IsClosed (g : Grammar) (w : List Char) (known : Span → Prop) : Prop :=
  ∀ (name : String), ∀ body ∈ g.bodies name, ∀ i j : Nat, i ≤ w.length →
    Leads known w body i j → known ⟨name, i, j⟩

section Leads

variable {g : Grammar} {known : Span → Prop} {w : List Char} {body : Body} {i j : Nat}

/-- More known spans lead further. -/
theorem Leads.mono {more : Span → Prop} (hmore : ∀ s, known s → more s)
    (h : Leads known w body i j) : Leads more w body i j := by
  induction h with
  | nil i => exact .nil i
  | terminal hc _ ih => exact .terminal hc ih
  | nonterminal hs _ ih => exact .nonterminal (hmore _ hs) ih

/-- The first token of a body leads to where the others start. -/
theorem Leads.cons_iff {t : Token} :
    Leads known w (t :: body) i j ↔ ∃ k, Leads known w [t] i k ∧ Leads known w body k j := by
  constructor
  · intro h
    cases h with
    | terminal hc h => exact ⟨_, .terminal hc (.nil _), h⟩
    | nonterminal hs h => exact ⟨_, .nonterminal hs (.nil _), h⟩
  · rintro ⟨k, ht, h⟩
    cases ht with
    | terminal hc hnil =>
      cases hnil
      exact .terminal hc h
    | nonterminal hs hnil =>
      cases hnil
      exact .nonterminal hs h

/-- The others start where the first token leads. -/
theorem Leads.exists_cons_iff {t : Token} {positions next : List Nat}
    (hnext : ∀ k, k ∈ next ↔ ∃ i ∈ positions, Leads known w [t] i k) :
    (∃ i ∈ positions, Leads known w (t :: body) i j) ↔ ∃ k ∈ next, Leads known w body k j := by
  constructor
  · rintro ⟨i, hi, h⟩
    obtain ⟨k, ht, h⟩ := Leads.cons_iff.mp h
    exact ⟨k, (hnext k).mpr ⟨i, hi, ht⟩, h⟩
  · rintro ⟨k, hk, h⟩
    obtain ⟨i, hi, ht⟩ := (hnext k).mp hk
    exact ⟨i, hi, Leads.cons_iff.mpr ⟨k, ht, h⟩⟩

/-- Spans that lie in a word in order lead forward in it. -/
theorem Leads.le (hknown : ∀ s, known s → s.first ≤ s.last ∧ s.last ≤ w.length)
    (h : Leads known w body i j) (hi : i ≤ w.length) : i ≤ j ∧ j ≤ w.length := by
  induction h with
  | nil i => exact ⟨Nat.le_refl i, hi⟩
  | terminal hc _ ih =>
    have hlt := (List.getElem?_eq_some_iff.mp hc).1
    have hle := ih hlt
    omega
  | @nonterminal name body i j k hs _ ih =>
    have hspan : i ≤ j ∧ j ≤ w.length := hknown _ hs
    have hle := ih hspan.2
    omega

/-- An empty body leads nowhere else. -/
theorem Leads.nil_iff : Leads known w [] i j ↔ j = i := by
  constructor
  · intro h
    cases h
    rfl
  · rintro rfl
    exact .nil j

/-- A terminal leads over its character. -/
theorem Leads.terminal_iff {c : Char} :
    Leads known w [.terminal c] i j ↔ w[i]? = some c ∧ j = i + 1 := by
  constructor
  · intro h
    cases h with
    | terminal hc hnil => exact ⟨hc, Leads.nil_iff.mp hnil⟩
  · rintro ⟨hc, rfl⟩
    exact .terminal hc (.nil _)

/-- A nonterminal leads over its spans. -/
theorem Leads.nonterminal_iff {name : String} :
    Leads known w [.nonterminal name] i j ↔ known ⟨name, i, j⟩ := by
  constructor
  · intro h
    cases h with
    | nonterminal hs hnil =>
      cases hnil
      exact hs
  · intro hs
    exact .nonterminal hs (.nil _)

/-- By right spans, a body leads from one position to another when it spells what stands between
them. -/
theorem exists_of_leads (h : Leads (Span.Right g w) w body i j) (hi : i ≤ w.length) :
    ∃ v, Stretch w i j v ∧ Spells g.productions.Language body v := by
  induction h with
  | nil i => exact ⟨[], Stretch.nil_iff.mpr ⟨rfl, hi⟩, .nil⟩
  | @terminal c body i j hc _ ih =>
    have hlt : i < w.length := (List.getElem?_eq_some_iff.mp hc).1
    obtain ⟨v, hv, hbody⟩ := ih hlt
    have hchar : Stretch w i (i + 1) [c] := Stretch.singleton_iff.mpr ⟨rfl, hc⟩
    exact ⟨c :: v, Stretch.append_iff.mpr ⟨i + 1, hchar, hv⟩, .terminal c hbody⟩
  | @nonterminal name body i j k hs _ ih =>
    obtain ⟨u, hu, hword⟩ := hs
    obtain ⟨v, hv, hbody⟩ := ih hu.le.2
    exact ⟨u ++ v, Stretch.append_iff.mpr ⟨j, hu, hv⟩, .nonterminal hword hbody⟩

/-- Right spans are closed. -/
theorem isClosed_right (g : Grammar) (w : List Char) : IsClosed g w (Span.Right g w) := by
  intro name body hb i j hi h
  obtain ⟨v, hv, hbody⟩ := exists_of_leads h hi
  exact ⟨v, hv, Productions.language_of_spells hb hbody⟩

/-- By closed spans, a form that yields a stretch leads from its beginning to its end. -/
theorem IsClosed.leads_of_yields (hclosed : IsClosed g w known) {form : Body} {v : List Char}
    (h : g.productions.Yields form v) (hv : Stretch w i j v) : Leads known w form i j := by
  induction h generalizing i j with
  | nil =>
    obtain ⟨rfl, _⟩ := Stretch.nil_iff.mp hv
    exact .nil j
  | @terminal c form v _ ih =>
    rw [← List.singleton_append] at hv
    obtain ⟨k, hk, hv⟩ := Stretch.append_iff.mp hv
    obtain ⟨rfl, hc⟩ := Stretch.singleton_iff.mp hk
    exact .terminal hc (ih hv)
  | @nonterminal name body form u v hb _ _ ihu ihv =>
    obtain ⟨k, hu, hv⟩ := Stretch.append_iff.mp hv
    have hle := hu.le
    exact .nonterminal (hclosed name body hb i k (by omega) (ihu hu)) (ihv hv)

/-- Closed spans have every right one. -/
theorem IsClosed.known_of_right (hclosed : IsClosed g w known) {s : Span} (h : s.Right g w) :
    known s := by
  obtain ⟨v, hv, body, hb, hbody⟩ := h
  have hle := hv.le
  exact hclosed s.name body hb s.first s.last (by omega) (hclosed.leads_of_yields hbody hv)

end Leads

/-! ### Rounds -/

/-- The spans of a queue that end inside a word. -/
def Listed (known : Agenda Span) (w : List Char) (s : Span) : Prop :=
  s ∈ known.visited ∧ s.last ≤ w.length

/-- A token leads over the spans of a queue. -/
theorem mem_advance_iff {known : Agenda Span} {w : List Char} {positions : List Nat} {t : Token}
    {j : Nat} : j ∈ advance known w.toArray positions t ↔
      ∃ i ∈ positions, Leads (Listed known w) w [t] i j := by
  cases t with
  | terminal c =>
    simp only [advance, List.mem_filterMap, List.getElem?_toArray, Leads.terminal_iff]
    refine exists_congr fun i ↦ and_congr_right fun _ ↦ ?_
    split <;> simp_all [eq_comm]
  | nonterminal name =>
    simp only [advance, Leads.nonterminal_iff, Listed]
    by_cases hempty : positions.isEmpty = true
    · rw [if_pos hempty, List.isEmpty_iff.mp hempty]
      simp only [List.not_mem_nil, false_and, exists_const]
    · rw [if_neg hempty]
      simp only [List.mem_filter, List.mem_range, List.size_toArray, List.any_eq_true,
        Agenda.contains_iff]
      constructor
      · rintro ⟨hj, i, hi, hs⟩
        exact ⟨i, hi, hs, by omega⟩
      · rintro ⟨i, hi, hs, hj⟩
        exact ⟨by omega, i, hi, hs⟩

/-- A body leads over the spans of a queue. -/
theorem mem_foldl_advance_iff {known : Agenda Span} {w : List Char} {positions : List Nat}
    {body : Body} {j : Nat} : j ∈ body.foldl (advance known w.toArray) positions ↔
      ∃ i ∈ positions, Leads (Listed known w) w body i j := by
  induction body generalizing positions with
  | nil => simp [Leads.nil_iff]
  | cons t body ih => rw [List.foldl_cons, ih, Leads.exists_cons_iff fun k ↦ mem_advance_iff]

/-- The new spans are the heads of bodies over the stretches that the bodies read. -/
theorem mem_newSpans_iff {g : Grammar} {known : Agenda Span} {w : List Char} {s : Span} :
    s ∈ g.newSpans w.toArray known ↔ ∃ body ∈ g.bodies s.name, s.first ≤ w.length ∧
      Leads (Listed known w) w body s.first s.last := by
  have hends : ∀ {body : Body} {i j : Nat}, j ∈ ends known w.toArray body i ↔
      Leads (Listed known w) w body i j := by
    intro body i j
    rw [ends, mem_foldl_advance_iff]
    simp
  unfold newSpans
  rw [List.mem_flatMap]
  constructor
  · rintro ⟨⟨head, body⟩, hr, hs⟩
    obtain ⟨i, hi, hs⟩ := List.mem_flatMap.mp hs
    obtain ⟨j, hj, rfl⟩ := List.mem_map.mp hs
    rw [List.mem_range, List.size_toArray] at hi
    exact ⟨body, mem_rules_iff.mp hr, Nat.le_of_lt_succ hi, hends.mp hj⟩
  · rintro ⟨body, hb, hi, hj⟩
    refine ⟨(s.name, body), mem_rules_iff.mpr hb, List.mem_flatMap.mpr ⟨s.first, ?_, ?_⟩⟩
    · rw [List.mem_range, List.size_toArray]
      omega
    · exact List.mem_map.mpr ⟨s.last, hends.mpr hj, rfl⟩

/-- Every span that is found is right. -/
theorem right_of_mem_spans {g : Grammar} {w : List Char} :
    ∀ s ∈ (g.spans w.toArray).visited, s.Right g w := by
  apply Agenda.saturate_induction
  · intro s hs
    cases hs
  · intro known hknown s hs
    obtain ⟨body, hb, hi, hlead⟩ := mem_newSpans_iff.mp hs
    exact isClosed_right g w s.name body hb s.first s.last hi
      (hlead.mono fun r hr ↦ hknown r hr.1)

/-- The spans that are found are closed. -/
theorem isClosed_spans (g : Grammar) (w : List Char) :
    IsClosed g w (Listed (g.spans w.toArray) w) := by
  intro name body hb i j hi hlead
  have hspan : ⟨name, i, j⟩ ∈ (g.spans w.toArray).visited := by
    apply Agenda.round_saturate_subset
    exact mem_newSpans_iff.mpr ⟨body, hb, hi, hlead⟩
  obtain ⟨v, hv, _⟩ := right_of_mem_spans _ hspan
  exact ⟨hspan, hv.le.2⟩

/-- The spans that are found are exactly the right ones. -/
theorem mem_spans_iff {g : Grammar} {w : List Char} {s : Span} :
    s ∈ (g.spans w.toArray).visited ↔ s.Right g w := by
  constructor
  · exact right_of_mem_spans s
  · intro h
    exact ((isClosed_spans g w).known_of_right h).1

/-! ### Membership -/

/-- Membership is decided by the span of the start symbol over the whole word. -/
theorem accepts_iff_language {g : Grammar} (hg : g.WellFormed) {w : List Char} :
    g.accepts w = true ↔ g.productions.Language g.start w := by
  unfold accepts
  rw [Bool.and_eq_true, List.all_eq_true, Agenda.contains_iff, mem_spans_iff]
  constructor
  · rintro ⟨_, v, hv, hw⟩
    rwa [Stretch.whole_iff.mp hv] at hw
  · intro hw
    refine ⟨fun c hc ↦ ?_, w, Stretch.whole_iff.mpr rfl, hw⟩
    exact decide_eq_true (hg.mem_terminals hw hc)

end LanguageTheory.Grammar
