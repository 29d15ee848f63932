import LanguageTheory.Proofs.Grammar.Fronts
import LanguageTheory.Proofs.Grammar.Proper
import Mathlib.Data.List.Nodup

/-!
# The grammar without left recursion

The sweep takes the nonterminals of a proper grammar in order. Once a nonterminal is done, its
bodies begin with terminals and later nonterminals only, and the nonterminals for repetition begin
no body at all. So the front of a body always moves on, and no nonterminal comes back to its own
front.
-/

namespace LanguageTheory.Grammar

/-! ### Fronts of noncontracting grammars -/

/-- In a noncontracting grammar no nonterminal that is used has the empty body. -/
theorem Noncontracting.solid {g : Grammar} (h : g.Noncontracting) : g.productions.Solid := by
  intro name hu hb
  obtain ⟨rfl, huses⟩ := h name hb
  exact huses hu

/-- In a noncontracting grammar only a start symbol that is used nowhere is nullable. -/
theorem Noncontracting.notMem_nullable {g : Grammar} (h : g.Noncontracting) {name : String}
    (hu : g.productions.Uses (.nonterminal name)) : name ∉ g.nullable := by
  intro hn
  have hempty : [] ∈ g.bodies name := by
    refine Productions.language_induction (motive := fun m v ↦ v = [] → [] ∈ g.bodies m) ?_
      (mem_nullable_iff.mp hn) rfl
    intro m body hb v hv he
    subst he
    cases body with
    | nil => exact hb
    | cons t body =>
      obtain ⟨k, he, hk⟩ := Spells.empty_iff.mp hv t (by simp)
      subst he
      obtain ⟨rfl, huses⟩ := h k (hk rfl)
      exact absurd (.of_mem hb (by simp)) huses
  exact h.solid name hu hempty

/-- In a noncontracting grammar the corners of a nonterminal are what its bodies begin with. -/
theorem Noncontracting.mem_directCorners_iff {g : Grammar} (h : g.Noncontracting)
    {name corner : String} :
    corner ∈ g.directCorners g.nullable name ↔ g.productions.Leads name corner := by
  have hcorners : ∀ body ∈ g.bodies name,
      (corner ∈ corners g.nullable body ↔ leading? body = some corner) := by
    intro body hb
    cases body with
    | nil => simp [corners, leading?]
    | cons t body =>
      cases t with
      | terminal c => simp [corners, leading?]
      | nonterminal m =>
        have hm : m ∉ g.nullable := h.notMem_nullable (.of_mem hb (by simp))
        simp [corners, leading?, hm, eq_comm]
  unfold directCorners Productions.Leads
  rw [List.mem_flatMap]
  constructor
  · rintro ⟨body, hb, hc⟩
    exact ⟨body, hb, (hcorners body hb).mp hc⟩
  · rintro ⟨body, hb, hc⟩
    exact ⟨body, hb, (hcorners body hb).mpr hc⟩

/-- A noncontracting grammar is left recursive when fronts of bodies lead from a nonterminal back
to it. -/
theorem Noncontracting.isLeftRecursive_iff {g : Grammar} (h : g.Noncontracting) :
    g.isLeftRecursive = true ↔ ∃ name, Relation.TransGen g.productions.Leads name name := by
  have hcorners : (fun a b ↦ b ∈ g.directCorners g.nullable a) = g.productions.Leads := by
    ext a b
    exact h.mem_directCorners_iff
  rw [Grammar.isLeftRecursive_iff]
  simp only [mem_leftCorners_iff, hcorners]
  constructor
  · rintro ⟨name, _, hn⟩
    exact ⟨name, hn⟩
  · rintro ⟨name, hn⟩
    obtain ⟨front, ⟨body, hb, _⟩, _⟩ := Relation.TransGen.head'_iff.mp hn
    exact ⟨name, Productions.mem_keys_of_mem_bodies hb, hn⟩

namespace Productions

/-! ### What the sweep keeps -/

/-- State of the sweep over `names` when `earlier` are done: bodies begin with old nonterminals
only, and those of old nonterminals go on with an old symbol. What begins a body of a nonterminal
that is done comes after it. -/
structure Swept (names earlier : List String) (p : Productions) : Prop where
  closed : p.Closed
  mem_keys : ∀ name ∈ names, name ∈ p.keys
  earlier_subset : earlier ⊆ names
  solid : p.Solid
  front_mem : ∀ {name front}, p.Leads name front → front ∈ names
  second : ∀ {name front rest}, name ∈ names → .nonterminal front :: rest ∈ p.bodies name →
    ∃ t more, rest = t :: more ∧ ∀ n, t = .nonterminal n → n ∈ names
  ordered : ∀ {before name after front}, earlier = before ++ name :: after → p.Leads name front →
    front ∉ before ∧ front ≠ name

namespace Swept

variable {names earlier : List String} {p : Productions}

/-- Replacing the front of bodies of a nonterminal that is not done keeps the state of the
sweep. -/
theorem inlineFront (h : p.Swept names earlier) {head name : String}
    (hhead : head ∉ earlier) (hmem : head ∈ names) (hname : name ∈ names) :
    (p.inlineFront head name).Swept names earlier := by
  have hkey := h.mem_keys name hname
  constructor
  · exact h.closed.inlineFront hkey
  · intro n hn
    rw [keys_inlineFront]
    exact h.mem_keys n hn
  · exact h.earlier_subset
  · exact h.solid.inlineFront hkey
  · intro n front hl
    by_cases hn : n = head
    · subst hn
      rcases h.solid.leads_inlineFront hkey hl with ⟨hl, _⟩ | ⟨_, hl⟩
      · exact h.front_mem hl
      · exact h.front_mem hl
    · unfold Leads at hl
      rw [bodies_inlineFront_of_ne hn] at hl
      exact h.front_mem hl
  · intro n front rest hn hb
    by_cases hnhead : n = head
    · subst hnhead
      rcases (mem_bodies_inlineFront_self hkey).mp hb with ⟨hb, _⟩ | ⟨old, hold, r, hr, he⟩
      · exact h.second hn hb
      · cases r with
        | nil => exact absurd hr (h.solid name (.of_mem hold (by simp)))
        | cons t r =>
          rw [List.cons_append, List.cons.injEq] at he
          obtain ⟨rfl, rfl⟩ := he
          obtain ⟨t, more, rfl, ht⟩ := h.second hname hr
          exact ⟨t, more ++ old, rfl, ht⟩
    · rw [bodies_inlineFront_of_ne hnhead] at hb
      exact h.second hn hb
  · intro before n after front he hl
    have hne : n ≠ head := by
      rintro rfl
      exact hhead (by simp [he])
    unfold Leads at hl
    rw [bodies_inlineFront_of_ne hne] at hl
    exact h.ordered he hl

/-- When nonterminals that are done are replaced one after the other, none of them is left at a
front. -/
theorem foldl_inlineFront {done rest : List String} (h : p.Swept names earlier)
    {head : String} (hhead : head ∉ earlier) (hmem : head ∈ names) (he : earlier = done ++ rest)
    (hfront : ∀ front, p.Leads head front → front ∉ done) :
    let q := rest.foldl (fun p name ↦ p.inlineFront head name) p
    q.Swept names earlier ∧ Rewrites names p q ∧
      ∀ front, q.Leads head front → front ∉ earlier := by
  induction rest generalizing p done with
  | nil =>
    rw [List.append_nil] at he
    subst he
    exact ⟨h, .refl names p, hfront⟩
  | cons name rest ih =>
    have hearlier : name ∈ earlier := by simp [he]
    have hname : name ∈ names := h.earlier_subset hearlier
    have hkey := h.mem_keys name hname
    have hne : name ≠ head := by
      rintro rfl
      exact hhead hearlier
    have hnext : ∀ front, (p.inlineFront head name).Leads head front →
        front ∉ done ++ [name] := by
      intro front hl
      have hboth : front ∉ done ∧ front ≠ name := by
        rcases h.solid.leads_inlineFront hkey hl with ⟨hl, hn⟩ | ⟨_, hl⟩
        · exact ⟨hfront front hl, hn⟩
        · exact h.ordered he hl
      simpa using hboth
    have hstep := h.solid.rewrites_inlineFront hkey hne names
    obtain ⟨hswept, hrewrites, hlast⟩ :=
      ih (h.inlineFront hhead hmem hname) (by simp [he]) hnext
    exact ⟨hswept, hstep.trans hrewrites, hlast⟩

/-- A nonterminal becomes done when its bodies have the old fronts, but neither its own nor one
that was done before. -/
theorem ordered_append {q : Productions} {head : String} (h : p.Swept names earlier)
    (hold : ∀ {name front}, name ∈ earlier → q.Leads name front → p.Leads name front)
    (hnew : ∀ {front}, q.Leads head front → front ∉ earlier ∧ front ≠ head)
    {before : List String} {name : String} {after : List String} {front : String}
    (he : earlier ++ [head] = before ++ name :: after) (hl : q.Leads name front) :
    front ∉ before ∧ front ≠ name := by
  have hupto : before ++ [name] <+: earlier ++ [head] := ⟨after, by simp [he]⟩
  rcases List.prefix_concat_iff.mp hupto with he | ⟨rest, rfl⟩
  · obtain ⟨rfl, hlast⟩ := List.append_inj' he rfl
    obtain rfl := List.singleton_inj.mp hlast
    exact hnew hl
  · exact h.ordered (List.append_assoc _ _ _) (hold (by simp) hl)

section RepeatsAtEnd

variable {q : Productions} {head tail : String}

/-- What begins the bodies of the head after it was repeated at the end. -/
theorem leads_head (h : p.Swept names earlier) (hq : p.RepeatsAtEnd head tail q)
    (hu : p.Uses (.nonterminal head)) {front : String} (hl : q.Leads head front) :
    p.Leads head front ∧ front ≠ head :=
  (hq.leads_head_cases hl).resolve_right fun hempty ↦ h.solid head hu hempty.2

/-- No old nonterminal is a body of itself. -/
theorem head_notMem (h : p.Swept names earlier) (hmem : head ∈ names) :
    [.nonterminal head] ∉ p.bodies head := by
  intro hb
  obtain ⟨t, more, he, _⟩ := h.second hmem hb
  cases he

/-- The bodies of the nonterminal for repetition begin with an old symbol. -/
theorem exists_cons_of_mem_tail (h : p.Swept names earlier)
    (hq : p.RepeatsAtEnd head tail q) (hmem : head ∈ names) {body : Body}
    (hb : body ∈ q.bodies tail) :
    ∃ t more, body = t :: more ∧ ∀ n, t = .nonterminal n → n ∈ names := by
  obtain ⟨rest, hrest, he⟩ := hq.tail_bodies.mp hb
  obtain ⟨t, more, rfl, ht⟩ := h.second hmem hrest
  rcases he with rfl | rfl
  · exact ⟨t, more, rfl, ht⟩
  · exact ⟨t, more ++ [.nonterminal tail], rfl, ht⟩

/-- An old nonterminal is none for repetition. -/
theorem ne_tail (h : p.Swept names earlier) (hq : p.RepeatsAtEnd head tail q) {name : String}
    (hn : name ∈ names) : name ≠ tail := by
  rintro rfl
  exact hq.fresh (h.mem_keys name hn)

/-- The bodies begin with an old nonterminal if with any, also after the head was repeated at the
end. -/
theorem front_mem_of_repeatsAtEnd (h : p.Swept names earlier) (hq : p.RepeatsAtEnd head tail q)
    (hu : p.Uses (.nonterminal head)) (hmem : head ∈ names) {name front : String}
    (hl : q.Leads name front) : front ∈ names := by
  by_cases hn : name = tail
  · subst hn
    obtain ⟨body, hb, hl⟩ := hl
    obtain ⟨t, more, rfl, ht⟩ := h.exists_cons_of_mem_tail hq hmem hb
    obtain ⟨rest, he⟩ := leading?_eq_some_iff.mp hl
    exact ht front (List.cons.inj he).1
  · by_cases hhead : name = head
    · subst hhead
      exact h.front_mem (h.leads_head hq hu hl).1
    · exact h.front_mem (hq.leads_of_ne hhead hn hl)

/-- What follows the front of a body begins with an old symbol, also after the head was repeated
at the end. -/
theorem second_of_repeatsAtEnd (h : p.Swept names earlier) (hq : p.RepeatsAtEnd head tail q)
    (hu : p.Uses (.nonterminal head)) {name front : String} {rest : Body} (hn : name ∈ names)
    (hb : .nonterminal front :: rest ∈ q.bodies name) :
    ∃ t more, rest = t :: more ∧ ∀ n, t = .nonterminal n → n ∈ names := by
  by_cases hhead : name = head
  · subst hhead
    obtain ⟨other, ho, _, he⟩ := hq.head_bodies.mp hb
    cases other with
    | nil => exact absurd ho (h.solid name hu)
    | cons t other =>
      rcases he with he | he
      · rw [← he] at ho
        exact h.second hn ho
      · rw [List.cons_append, List.cons.injEq] at he
        obtain ⟨rfl, rfl⟩ := he
        obtain ⟨t, more, rfl, ht⟩ := h.second hn ho
        exact ⟨t, more ++ [.nonterminal tail], rfl, ht⟩
  · rw [hq.other_bodies hhead (h.ne_tail hq hn)] at hb
    exact h.second hn hb

/-- Repetition at the end makes the next nonterminal done, if no front of its bodies was done
before. -/
theorem of_repeatsAtEnd (h : p.Swept names earlier) (hq : p.RepeatsAtEnd head tail q)
    (hu : p.Uses (.nonterminal head)) (hhead : head ∉ earlier) (hmem : head ∈ names)
    (hfront : ∀ front, p.Leads head front → front ∉ earlier) :
    q.Swept names (earlier ++ [head]) := by
  constructor
  · exact hq.closed h.closed
  · intro n hn
    exact hq.mem_keys.mpr (Or.inl (h.mem_keys n hn))
  · intro n hn
    rcases List.mem_append.mp hn with hn | hn
    · exact h.earlier_subset hn
    · rw [List.mem_singleton.mp hn]
      exact hmem
  · exact hq.solid h.solid (h.head_notMem hmem)
  · exact h.front_mem_of_repeatsAtEnd hq hu hmem
  · exact h.second_of_repeatsAtEnd hq hu
  · apply h.ordered_append
    · intro n front hn hl
      have hnhead : n ≠ head := by
        rintro rfl
        exact hhead hn
      exact hq.leads_of_ne hnhead (h.ne_tail hq (h.earlier_subset hn)) hl
    · intro front hl
      obtain ⟨hl, hne⟩ := h.leads_head hq hu hl
      exact ⟨hfront front hl, hne⟩

end RepeatsAtEnd

/-- One nonterminal is done after its direct recursion was removed, if no front of its bodies was
done before. -/
theorem recurseAtEnd (h : p.Swept names earlier) {head : String} (hhead : head ∉ earlier)
    (hmem : head ∈ names) (hfront : ∀ front, p.Leads head front → front ∉ earlier) :
    (p.recurseAtEnd head).Swept names (earlier ++ [head]) ∧
      Rewrites names p (p.recurseAtEnd head) := by
  rcases p.recurseAtEnd_cases head with ⟨hself, he⟩ | ⟨hself, tail, hq⟩
  · rw [he]
    refine ⟨⟨h.closed, h.mem_keys, ?_, h.solid, h.front_mem, h.second, ?_⟩, .refl names p⟩
    · intro n hn
      rcases List.mem_append.mp hn with hn | hn
      · exact h.earlier_subset hn
      · rw [List.mem_singleton.mp hn]
        exact hmem
    · apply h.ordered_append
      · intro n front _ hl
        exact hl
      · intro front hl
        refine ⟨hfront front hl, ?_⟩
        rintro rfl
        exact hself hl
  · exact ⟨h.of_repeatsAtEnd hq hself.uses hhead hmem hfront,
      hq.rewrites h.closed (h.head_notMem hmem) h.mem_keys⟩

/-- The sweep makes all nonterminals done. -/
theorem removeRecursion {heads : List String} (h : p.Swept names earlier)
    (hnodup : names.Nodup) (he : names = earlier ++ heads) :
    (p.removeRecursion earlier heads).Swept names names ∧
      Rewrites names p (p.removeRecursion earlier heads) := by
  induction heads generalizing p earlier with
  | nil =>
    rw [List.append_nil] at he
    subst he
    exact ⟨h, .refl names p⟩
  | cons head heads ih =>
    have hmem : head ∈ names := by simp [he]
    have hhead : head ∉ earlier := by
      intro hm
      rw [he] at hnodup
      exact List.disjoint_of_nodup_append hnodup hm (by simp)
    obtain ⟨hfold, hfoldr, hfront⟩ :=
      h.foldl_inlineFront hhead hmem (List.nil_append earlier).symm fun _ _ ↦ List.not_mem_nil
    obtain ⟨hdone, hdoner⟩ := hfold.recurseAtEnd hhead hmem hfront
    obtain ⟨hlast, hlastr⟩ := ih hdone (by simp [he])
    exact ⟨hlast, hfoldr.trans (hdoner.trans hlastr)⟩

/-! ### No way back to a front -/

/-- Place of a nonterminal in the order of fronts: those for repetition come first. -/
def place (names : List String) (name : String) : Nat :=
  if name ∈ names then names.idxOf name + 1 else 0

/-- After the sweep a body begins with a later nonterminal. -/
theorem place_lt (h : p.Swept names names) (hnodup : names.Nodup) {name front : String}
    (hl : p.Leads name front) : place names name < place names front := by
  have hfront : front ∈ names := h.front_mem hl
  unfold place
  rw [if_pos hfront]
  split
  · next hname =>
    obtain ⟨before, after, he⟩ := List.append_of_mem hname
    obtain ⟨hbefore, hne⟩ := h.ordered he hl
    have hself : name ∉ before := by
      intro hm
      rw [he] at hnodup
      exact List.disjoint_of_nodup_append hnodup hm (by simp)
    have hlater : (name :: after).idxOf front = after.idxOf front + 1 := by
      rw [List.idxOf_cons, beq_false_of_ne (Ne.symm hne)]
      rfl
    rw [he, List.idxOf_append, if_neg hself, List.idxOf_append, if_neg hbefore,
      List.idxOf_cons_self, hlater]
    omega
  · omega

/-- After the sweep no chain of fronts leads from a nonterminal back to it. -/
theorem not_transGen_leads (h : p.Swept names names) (hnodup : names.Nodup)
    (name : String) : ¬ Relation.TransGen p.Leads name name :=
  not_transGen_leads_of_lt (place names) (fun _ _ hl ↦ h.place_lt hnodup hl) name

end Swept

end Productions

/-! ### The grammar after the sweep -/

/-- The sweep can start at the proper grammar. -/
theorem swept_toProper {g : Grammar} (hg : g.WellFormed) :
    g.toProper.productions.Swept g.toProper.nonterminals [] := by
  obtain ⟨_, hclosed, _⟩ := wellFormed_iff.mp hg.toProper
  constructor
  · exact hclosed
  · intro name hn
    exact hn
  · exact List.nil_subset _
  · exact (noncontracting_toProper hg).solid
  · intro name front hl
    exact hclosed front hl.uses
  · intro name front rest _ hb
    cases rest with
    | nil => exact absurd hb single_notMem_bodies_toProper
    | cons t more =>
      refine ⟨t, more, rfl, ?_⟩
      rintro n rfl
      exact hclosed n (.of_mem hb (by simp))
  · intro before name after front he
    simp at he

/-- The proper grammar after the sweep. -/
def swept (g : Grammar) : Grammar :=
  { g.toProper with
    productions := g.toProper.productions.removeRecursion [] g.toProper.nonterminals }

/-- The grammar without left recursion is the reduced one after the sweep. -/
theorem removeLeftRecursion_eq (g : Grammar) : g.removeLeftRecursion = g.swept.reduce := rfl

/-- The sweep makes all nonterminals of the proper grammar done. -/
theorem swept_removeRecursion {g : Grammar} (hg : g.WellFormed) :
    g.swept.productions.Swept g.toProper.nonterminals g.toProper.nonterminals ∧
      Productions.Rewrites g.toProper.nonterminals g.toProper.productions g.swept.productions :=
  (swept_toProper hg).removeRecursion g.toProper.productions.nodup_keys rfl

/-- The sweep keeps a grammar well formed. -/
theorem WellFormed.swept {g : Grammar} (hg : g.WellFormed) : g.swept.WellFormed := by
  obtain ⟨hswept, hrewrites⟩ := swept_removeRecursion hg
  obtain ⟨hstart, _, hterminals⟩ := wellFormed_iff.mp hg.toProper
  refine wellFormed_iff.mpr ⟨hswept.mem_keys _ hstart, hswept.closed, fun c hc ↦ ?_⟩
  exact hterminals c (hrewrites.terminals c hc)

/-- The sweep keeps the words of a grammar. -/
theorem generates_swept_iff {g : Grammar} (hg : g.WellFormed) {w : List Char} :
    g.swept.Generates w ↔ g.Generates w := by
  obtain ⟨_, hrewrites⟩ := swept_removeRecursion hg
  obtain ⟨hstart, _, _⟩ := wellFormed_iff.mp hg.toProper
  rw [← generates_toProper_iff hg, generates_iff, generates_iff]
  exact hrewrites.language _ hstart w

/-- The sweep leaves the empty body at an unused start symbol only. -/
theorem noncontracting_swept {g : Grammar} (hg : g.WellFormed) : g.swept.Noncontracting := by
  obtain ⟨hswept, hrewrites⟩ := swept_removeRecursion hg
  intro name hb
  obtain ⟨rfl, _⟩ := noncontracting_toProper hg name (hrewrites.empty name hb)
  exact ⟨rfl, fun hu ↦ hswept.solid _ hu hb⟩

/-- The grammar without left recursion is well formed. -/
theorem WellFormed.removeLeftRecursion {g : Grammar} (hg : g.WellFormed) :
    g.removeLeftRecursion.WellFormed := hg.swept.reduce

/-- The grammar without left recursion has the empty body at an unused start symbol only. -/
theorem noncontracting_removeLeftRecursion {g : Grammar} (hg : g.WellFormed) :
    g.removeLeftRecursion.Noncontracting := (noncontracting_swept hg).reduce

/-- The terminals of the grammar without left recursion are declared before. -/
theorem mem_terminals_of_mem_terminals_removeLeftRecursion {g : Grammar} {c : Char}
    (h : c ∈ g.removeLeftRecursion.terminals) : c ∈ g.terminals := by
  rw [removeLeftRecursion_eq] at h
  have hproper := mem_terminals_of_mem_terminals_reduce h
  rw [swept] at hproper
  exact mem_terminals_of_mem_terminals_toProper hproper

/-- The grammar without left recursion has the same words. -/
theorem generates_removeLeftRecursion_iff {g : Grammar} (hg : g.WellFormed) {w : List Char} :
    g.removeLeftRecursion.Generates w ↔ g.Generates w := by
  rw [removeLeftRecursion_eq, generates_reduce_iff, generates_swept_iff hg]

/-- In the grammar without left recursion no chain of fronts leads from a nonterminal back to
it. -/
theorem not_transGen_leads_removeLeftRecursion {g : Grammar} (hg : g.WellFormed) (name : String) :
    ¬ Relation.TransGen g.removeLeftRecursion.productions.Leads name name := by
  intro h
  have hswept : Relation.TransGen g.swept.productions.Leads name name := by
    have hleads : g.removeLeftRecursion.productions.Leads ≤ g.swept.productions.Leads := by
      rintro a b ⟨body, hb, hl⟩
      exact ⟨body, mem_bodies_of_mem_bodies_reduce hb, hl⟩
    exact Relation.TransGen.mono hleads _ _ h
  exact (swept_removeRecursion hg).1.not_transGen_leads g.toProper.productions.nodup_keys
    name hswept

/-- The grammar without left recursion is not left recursive. -/
theorem isLeftRecursive_removeLeftRecursion {g : Grammar} (hg : g.WellFormed) :
    g.removeLeftRecursion.isLeftRecursive = false := by
  apply Bool.eq_false_iff.mpr
  intro h
  obtain ⟨name, hn⟩ := (noncontracting_removeLeftRecursion hg).isLeftRecursive_iff.mp h
  exact not_transGen_leads_removeLeftRecursion hg name hn

/-- Removing left recursion keeps the words of a grammar and leaves no nonterminal that derives a
form which begins with itself. -/
theorem removeLeftRecursion_correct {g : Grammar} (hg : g.WellFormed) :
    (∀ w, g.removeLeftRecursion.Generates w ↔ g.Generates w) ∧
      g.removeLeftRecursion.isLeftRecursive = false ∧
        ∀ name next form, g.removeLeftRecursion.Step [.nonterminal name] next →
          ¬ g.removeLeftRecursion.Derives next (.nonterminal name :: form) := by
  have hleft := isLeftRecursive_removeLeftRecursion hg
  refine ⟨fun w ↦ generates_removeLeftRecursion_iff hg, hleft, ?_⟩
  intro name next form hs
  exact not_derives_of_isLeftRecursive_eq_false hleft hs

/-- Left recursion behind a nullable nonterminal is removed. -/
theorem removeLeftRecursion_correct_hiddenRecursion :
    hiddenRecursion.WellFormed ∧
      (∀ w, hiddenRecursion.removeLeftRecursion.Generates w ↔ hiddenRecursion.Generates w) ∧
      hiddenRecursion.removeLeftRecursion.isLeftRecursive = false ∧
        ∀ name next form, hiddenRecursion.removeLeftRecursion.Step [.nonterminal name] next →
          ¬ hiddenRecursion.removeLeftRecursion.Derives next (.nonterminal name :: form) :=
  ⟨by decide, removeLeftRecursion_correct (by decide)⟩

example : hiddenRecursion.isLeftRecursive = true := by cbv

end LanguageTheory.Grammar
