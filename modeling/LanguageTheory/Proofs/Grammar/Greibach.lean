import LanguageTheory.Grammar.Greibach
import LanguageTheory.Proofs.Grammar.LeftRecursion
import LanguageTheory.Proofs.Search.DepthFirst

/-!
# Greibach normal form

Without left recursion the nonterminals are expanded in an order in which each comes after those
that its bodies begin with. All of these have bodies that begin with terminals by then, so that one
replacement for each of them leaves no nonterminal at a front. Behind the front every terminal gets
a nonterminal of its own.
-/

namespace LanguageTheory.Grammar

namespace Productions

/-! ### Expansion of one nonterminal -/

/-- The leading names of a nonterminal are those that its bodies begin with. -/
theorem mem_leadingNames_iff {p : Productions} {name front : String} :
    front ∈ p.leadingNames name ↔ p.Leads name front := List.mem_filterMap

/-- What replacements at fronts keep. -/
structure Substituted (p q : Productions) : Prop where
  keys : Table.keys q = p.keys
  uses : ∀ t, q.Uses t → p.Uses t
  solid : q.Solid
  rewrites : Rewrites p.keys p q

/-- Nothing is replaced. -/
theorem Substituted.refl {p : Productions} (h : p.Solid) : p.Substituted p where
  keys := rfl
  uses _ ht := ht
  solid := h
  rewrites := .refl _ p

/-- One replacement after another. -/
theorem Substituted.trans {p q r : Productions} (h : p.Substituted q) (h' : q.Substituted r) :
    p.Substituted r := by
  constructor
  · rw [h'.keys, h.keys]
  · intro t ht
    exact h.uses t (h'.uses t ht)
  · exact h'.solid
  · have hrewrites := h'.rewrites
    rw [h.keys] at hrewrites
    exact h.rewrites.trans hrewrites

/-- One replacement. -/
theorem Solid.substituted_inlineFront {p : Productions} (h : p.Solid) {head name : String}
    (hname : name ∈ p.keys) (hne : name ≠ head) : p.Substituted (p.inlineFront head name) where
  keys := keys_inlineFront p head name
  uses _ ht := uses_of_uses_inlineFront hname ht
  solid := h.inlineFront hname
  rewrites := h.rewrites_inlineFront hname hne p.keys

/-- State of the expansion of `head` when the fronts `rest` are still to be replaced. -/
structure Expanding (p : Productions) (head : String) (rest : List String) (q : Productions) :
    Prop extends p.Substituted q where
  head_front : ∀ front, q.Leads head front → front ∈ rest
  bodies_eq : ∀ name, name ≠ head → q.bodies name = p.bodies name

/-- One front is replaced by bodies that begin with terminals. -/
theorem Expanding.inlineFront {p q : Productions} {head name : String} {rest : List String}
    (h : p.Expanding head (name :: rest) q) (hname : name ∈ p.keys) (hne : name ≠ head)
    (hfront : ∀ front, ¬ p.Leads name front) :
    p.Expanding head rest (q.inlineFront head name) := by
  have hkey : name ∈ Table.keys q := by
    rw [h.keys]
    exact hname
  refine ⟨h.toSubstituted.trans (h.solid.substituted_inlineFront hkey hne), ?_, ?_⟩
  · intro front hl
    rcases h.solid.leads_inlineFront hkey hl with ⟨hl, hn⟩ | ⟨_, hl⟩
    · exact (List.mem_cons.mp (h.head_front front hl)).resolve_left hn
    · unfold Leads at hl
      rw [h.bodies_eq name hne] at hl
      exact absurd hl (hfront front)
  · intro other ho
    rw [bodies_inlineFront_of_ne ho]
    exact h.bodies_eq other ho

/-- All fronts are replaced one after the other. -/
theorem Expanding.foldl_inlineFront {p q : Productions} {head : String} {rest : List String}
    (h : p.Expanding head rest q)
    (hrest : ∀ name ∈ rest, name ∈ p.keys ∧ name ≠ head ∧ ∀ front, ¬ p.Leads name front) :
    p.Expanding head [] (rest.foldl (fun q name ↦ q.inlineFront head name) q) := by
  induction rest generalizing q with
  | nil => exact h
  | cons name rest ih =>
    obtain ⟨hname, hne, hfront⟩ := hrest name List.mem_cons_self
    apply ih (h.inlineFront hname hne hfront)
    intro other ho
    exact hrest other (List.mem_cons_of_mem _ ho)

/-- A nonterminal is expanded at once when all that its bodies begin with was expanded. -/
theorem expanding_expandLeading {p : Productions} {head : String} (h : p.Solid)
    (hfront : ∀ name, p.Leads head name →
      name ∈ p.keys ∧ name ≠ head ∧ ∀ front, ¬ p.Leads name front) :
    p.Expanding head [] (p.expandLeading head) := by
  have hstart : p.Expanding head (OrderedSet.ofList (p.leadingNames head)).toList p := by
    refine ⟨.refl h, ?_, fun _ _ ↦ rfl⟩
    intro front hl
    exact OrderedSet.mem_ofList.mpr (mem_leadingNames_iff.mpr hl)
  apply hstart.foldl_inlineFront
  intro name hn
  exact hfront name (mem_leadingNames_iff.mp (OrderedSet.mem_ofList.mp hn))

/-! ### Expansion of all nonterminals -/

/-- State of the expansion of productions `p` after the nonterminals `done` were expanded: none of
their bodies begins with a nonterminal, and all other bodies are as they were. -/
structure Expanded (p : Productions) (done : List String) (q : Productions) : Prop
    extends p.Substituted q where
  done_front : ∀ name ∈ done, ∀ front, ¬ q.Leads name front
  bodies_eq : ∀ name, name ∉ done → q.bodies name = p.bodies name

/-- The next nonterminal is expanded. -/
theorem Expanded.expandLeading {p q : Productions} {done : List String} {head : String}
    (h : p.Expanded done q) (hclosed : p.Closed) (hhead : head ∉ done)
    (hfront : ∀ name, p.Leads head name → name ∈ done) :
    p.Expanded (done ++ [head]) (q.expandLeading head) := by
  have hnext : q.Expanding head [] (q.expandLeading head) := by
    apply expanding_expandLeading h.solid
    intro name hl
    have hdone : name ∈ done := by
      unfold Leads at hl
      rw [h.bodies_eq head hhead] at hl
      exact hfront name hl
    refine ⟨?_, ?_, h.done_front name hdone⟩
    · rw [h.keys]
      exact hclosed name (h.uses _ hl.uses)
    · rintro rfl
      exact hhead hdone
  refine ⟨h.toSubstituted.trans hnext.toSubstituted, ?_, ?_⟩
  · intro name hn front hl
    by_cases hnhead : name = head
    · subst hnhead
      exact absurd (hnext.head_front front hl) List.not_mem_nil
    · have hdone : name ∈ done := by simpa [hnhead] using hn
      unfold Leads at hl
      rw [hnext.bodies_eq name hnhead] at hl
      exact h.done_front name hdone front hl
  · intro name hn
    rw [List.mem_append, List.mem_singleton, not_or] at hn
    rw [hnext.bodies_eq name hn.2, h.bodies_eq name hn.1]

/-- In an order in which all that a body begins with comes first, all nonterminals are expanded. -/
theorem Expanded.foldl_expandLeading {p q : Productions} {done rest : List String}
    (h : p.Expanded done q) (hclosed : p.Closed) (hnodup : (done ++ rest).Nodup)
    (hsorted : DepthFirst.Sorted p.leadingNames (done ++ rest)) :
    p.Expanded (done ++ rest) (rest.foldl Productions.expandLeading q) := by
  induction rest generalizing q done with
  | nil =>
    rw [List.append_nil]
    exact h
  | cons head rest ih =>
    have hhead : head ∉ done := by
      intro hm
      exact List.disjoint_of_nodup_append hnodup hm (by simp)
    have hnext := h.expandLeading hclosed hhead fun name hl ↦
      hsorted done head rest rfl name (mem_leadingNames_iff.mpr hl)
    have hassoc : done ++ head :: rest = done ++ [head] ++ rest := by simp
    rw [hassoc] at hnodup hsorted ⊢
    exact ih hnext hnodup hsorted

/-! ### The order of the fronts -/

/-- Leading names are the successors that the bodies of a nonterminal begin with. -/
theorem mem_leadingNames_eq_leads (p : Productions) :
    (fun name front ↦ front ∈ p.leadingNames name) = p.Leads := by
  ext name front
  exact mem_leadingNames_iff

/-- No nonterminal is twice in the order of the fronts. -/
theorem nodup_leadingOrder (p : Productions) : p.leadingOrder.Nodup :=
  DepthFirst.nodup_order p.mem_leadingCarrier _ _

/-- Every nonterminal is in the order of the fronts. -/
theorem mem_leadingOrder {p : Productions} {name : String} (h : name ∈ p.keys) :
    name ∈ p.leadingOrder := DepthFirst.mem_order p.mem_leadingCarrier h

/-- In closed productions nothing but the nonterminals is in the order of the fronts. -/
theorem Closed.mem_leadingOrder_iff {p : Productions} (hclosed : p.Closed) {name : String} :
    name ∈ p.leadingOrder ↔ name ∈ p.keys := by
  refine ⟨fun h ↦ ?_, mem_leadingOrder⟩
  obtain ⟨key, hkey, hchain⟩ := DepthFirst.exists_of_mem_order p.mem_leadingCarrier h
  cases hchain with
  | refl => exact hkey
  | tail _ hlast => exact hclosed name (mem_leadingNames_iff.mp hlast).uses

/-- Without cycles of fronts, a nonterminal comes after those that its bodies begin with. -/
theorem sorted_leadingOrder {p : Productions}
    (acyclic : ∀ name, ¬ Relation.TransGen p.Leads name name) :
    DepthFirst.Sorted p.leadingNames p.leadingOrder := by
  apply DepthFirst.sorted_order
  rwa [mem_leadingNames_eq_leads]

/-- The order of the fronts of closed productions lists each nonterminal once. Without cycles of
fronts, what the bodies of a nonterminal can begin with comes before the nonterminal. -/
theorem Closed.nodup_leadingOrder_and_idxOf_lt {p : Productions} (hclosed : p.Closed) :
    p.leadingOrder.Nodup ∧ (∀ name, name ∈ p.leadingOrder ↔ name ∈ p.keys) ∧
      ((∀ name, ¬ Relation.TransGen p.Leads name name) →
        ∀ name front, Relation.TransGen p.Leads name front →
          p.leadingOrder.idxOf front < p.leadingOrder.idxOf name) := by
  refine ⟨p.nodup_leadingOrder, fun _ ↦ hclosed.mem_leadingOrder_iff, ?_⟩
  intro acyclic name front hchain
  obtain ⟨_, hfirst, _⟩ := Relation.TransGen.head'_iff.mp hchain
  have hlisted := mem_leadingOrder hfirst.mem_keys
  rw [← mem_leadingNames_eq_leads] at hchain
  exact (sorted_leadingOrder acyclic).idxOf_lt_of_transGen hlisted hchain

/-- Productions in which each nonterminal begins bodies of earlier ones only: `S: AB | Bc` and
`A: Ba | b` and `B: b`. -/
def descending : Productions :=
  .ofList [
    ("S", .ofList [[.nonterminal "A", .nonterminal "B"], [.nonterminal "B", .terminal 'c']]),
    ("A", .ofList [[.nonterminal "B", .terminal 'a'], [.terminal 'b']]),
    ("B", .ofList [[.terminal 'b']])]

/-- The last nonterminal comes first. -/
theorem nodup_leadingOrder_and_idxOf_lt_descending :
    descending.Closed ∧ (∀ name, ¬ Relation.TransGen descending.Leads name name) ∧
      descending.leadingOrder.Nodup ∧
      (∀ name, name ∈ descending.leadingOrder ↔ name ∈ ["S", "A", "B"]) ∧
      Relation.TransGen descending.Leads "S" "B" ∧
      descending.leadingOrder.idxOf "B" < descending.leadingOrder.idxOf "S" := by
  have hclosed : descending.Closed := by
    have hg : Grammar.WellFormed ⟨"S", .ofSet (.ofList ['a', 'b', 'c']), descending⟩ := by decide
    exact (wellFormed_iff.mp hg).2.1
  have hlater : ∀ name ∈ ["S", "A", "B"], ∀ front ∈ descending.leadingNames name,
      ["S", "A", "B"].idxOf name < ["S", "A", "B"].idxOf front := by decide
  have acyclic : ∀ name, ¬ Relation.TransGen descending.Leads name name :=
    not_transGen_leads_of_lt ["S", "A", "B"].idxOf fun name front hl ↦
      hlater name hl.mem_keys front (mem_leadingNames_iff.mpr hl)
  have hchain : Relation.TransGen descending.Leads "S" "B" :=
    .single ⟨[.nonterminal "B", .terminal 'c'], by decide, rfl⟩
  obtain ⟨hnodup, hmem, hlt⟩ := hclosed.nodup_leadingOrder_and_idxOf_lt
  exact ⟨hclosed, acyclic, hnodup, hmem, hchain, hlt acyclic _ _ hchain⟩

example : descending.leadingOrder = ["B", "A", "S"] := by cbv

/-- Without cycles of fronts, expansion in the order of the fronts leaves no nonterminal at the
front of a body. -/
theorem expanded_leadingOrder {p : Productions} (hclosed : p.Closed) (hsolid : p.Solid)
    (acyclic : ∀ name, ¬ Relation.TransGen p.Leads name name) :
    p.Expanded p.leadingOrder (p.leadingOrder.foldl Productions.expandLeading p) := by
  have hstart : p.Expanded [] p :=
    ⟨.refl hsolid, fun _ hn ↦ absurd hn List.not_mem_nil, fun _ _ ↦ rfl⟩
  exact hstart.foldl_expandLeading hclosed p.nodup_leadingOrder (sorted_leadingOrder acyclic)

/-! ### Nonterminals for inner terminals -/

/-- Fresh names in brackets are different for different characters. -/
theorem proxyName_injective {p : Productions} {c d : Char} (h : p.proxyName c = p.proxyName d) :
    c = d := by
  have htext : ∀ e, ∃ n, (p.proxyName e).toList = '[' :: e :: ']' :: List.replicate n '\'' := by
    intro e
    obtain ⟨n, hn⟩ := exists_toList_freshName ("[" ++ e.toString ++ "]") p.keys
    exact ⟨n, by rw [proxyName, hn]; simp⟩
  obtain ⟨m, hm⟩ := htext c
  obtain ⟨n, hn⟩ := htext d
  rw [h, hn] at hm
  simp only [List.cons.injEq] at hm
  exact hm.2.1.symm

/-- A nonterminal for a terminal is new. -/
theorem proxyName_notMem (p : Productions) (c : Char) : p.proxyName c ∉ p.keys :=
  freshName_notMem _ _

/-- A terminal has its character. -/
theorem terminal?_eq_some_iff {t : Token} {c : Char} : terminal? t = some c ↔ t = .terminal c := by
  cases t with
  | terminal d => simp [terminal?]
  | nonterminal n => simp [terminal?]

/-- The inner terminals are those behind the front of a body. -/
theorem mem_innerTerminals_iff {p : Productions} {c : Char} :
    c ∈ p.innerTerminals ↔ ∃ name, ∃ body ∈ p.bodies name, .terminal c ∈ body.tail := by
  rw [innerTerminals, OrderedSet.mem_sorted, OrderedSet.mem_ofList, List.mem_flatMap]
  constructor
  · rintro ⟨bodies, hv, hc⟩
    obtain ⟨name, hn⟩ := Table.mem_values_iff.mp hv
    obtain ⟨body, hb, hc⟩ := List.mem_flatMap.mp hc
    obtain ⟨t, ht, he⟩ := List.mem_filterMap.mp hc
    rw [terminal?_eq_some_iff.mp he] at ht
    exact ⟨name, body, mem_bodies_iff.mpr ⟨bodies, hn, hb⟩, ht⟩
  · rintro ⟨name, body, hb, ht⟩
    obtain ⟨bodies, hn, hb⟩ := mem_bodies_iff.mp hb
    refine ⟨bodies, Table.mem_values_iff.mpr ⟨name, hn⟩, List.mem_flatMap.mpr ⟨body, hb, ?_⟩⟩
    exact List.mem_filterMap.mpr ⟨_, ht, rfl⟩

/-- The nonterminals are the old ones and those for the inner terminals. -/
theorem mem_keys_proxyInner {p : Productions} {name : String} :
    name ∈ p.proxyInner.keys ↔ name ∈ p.keys ∨ ∃ c ∈ p.innerTerminals, name = p.proxyName c := by
  rw [proxyInner, Table.mem_keys_insertMany, Table.keys_mapValues]
  simp [eq_comm]

/-- The bodies of the old nonterminals. -/
theorem mem_bodies_proxyInner {p : Productions} {name : String} {body : Body}
    (h : name ∈ p.keys) :
    body ∈ p.proxyInner.bodies name ↔ ∃ old ∈ p.bodies name, p.proxyBody old = body := by
  have hold : name ∉ (p.innerTerminals.map fun c ↦
      (p.proxyName c, OrderedSet.singleton [Token.terminal c])).map Prod.fst := by
    intro hm
    obtain ⟨_, he, rfl⟩ := List.mem_map.mp hm
    obtain ⟨c, _, rfl⟩ := List.mem_map.mp he
    exact proxyName_notMem p c h
  rw [mem_bodies_iff, proxyInner, Table.get?_insertMany_of_notMem hold, ← mem_bodies_iff,
    mem_bodies_mapValues]
  constructor
  · rintro ⟨bodies, hb, hbody⟩
    obtain ⟨old, hold, he⟩ := OrderedSet.mem_map.mp hbody
    exact ⟨old, mem_bodies_iff.mpr ⟨bodies, hb, hold⟩, he⟩
  · rintro ⟨old, hold, he⟩
    obtain ⟨bodies, hb, hold⟩ := mem_bodies_iff.mp hold
    exact ⟨bodies, hb, OrderedSet.mem_map.mpr ⟨old, hold, he⟩⟩

/-- The nonterminal for an inner terminal has the terminal as its only body. -/
theorem bodies_proxyInner_proxyName {p : Productions} {c : Char} (h : c ∈ p.innerTerminals) :
    p.proxyInner.bodies (p.proxyName c) = [[.terminal c]] := by
  have hget : Table.get? p.proxyInner (p.proxyName c) =
      some (OrderedSet.singleton [.terminal c]) := by
    apply Table.get?_insertMany_of_mem
    · rw [List.map_map]
      have hnodup : p.innerTerminals.Nodup := OrderedSet.nodup_sorted _
      exact List.pairwise_map.mpr (hnodup.imp fun hne he ↦ hne (proxyName_injective he))
    · exact List.mem_map.mpr ⟨c, h, rfl⟩
  rw [bodies_of_get? hget]
  rfl

/-- Every body is an old one with nonterminals for inner terminals, or such a terminal. -/
theorem exists_of_mem_bodies_proxyInner {p : Productions} {name : String} {body : Body}
    (h : body ∈ p.proxyInner.bodies name) :
    (∃ old ∈ p.bodies name, p.proxyBody old = body) ∨
      ∃ c ∈ p.innerTerminals, name = p.proxyName c ∧ body = [.terminal c] := by
  rcases mem_keys_proxyInner.mp (mem_keys_of_mem_bodies h) with hn | ⟨c, hc, rfl⟩
  · exact Or.inl ((mem_bodies_proxyInner hn).mp h)
  · rw [bodies_proxyInner_proxyName hc] at h
    exact Or.inr ⟨c, hc, rfl, List.mem_singleton.mp h⟩

/-- What a token spells its nonterminal spells, if it has one. -/
theorem spells_proxyToken {p : Productions} {t : Token} {w : List Char}
    (ht : ∀ c, t = .terminal c → c ∈ p.innerTerminals)
    (hw : Spells p.proxyInner.Language [t] w) :
    Spells p.proxyInner.Language [p.proxyToken t] w := by
  cases t with
  | nonterminal n => exact hw
  | terminal c =>
    have hbody : [Token.terminal c] ∈ p.proxyInner.bodies (p.proxyName c) := by
      rw [bodies_proxyInner_proxyName (ht c rfl)]
      exact List.mem_singleton.mpr rfl
    exact Spells.single_iff.mpr (language_of_spells hbody hw)

/-- The words of the old nonterminals, and for each nonterminal in brackets its terminal. -/
def proxyWords (p : Productions) (name : String) (w : List Char) : Prop :=
  (name ∈ p.keys → p.Language name w) ∧ ∀ c, name = p.proxyName c → w = [c]

/-- What the nonterminal of a token spells the token spells. -/
theorem spells_of_proxyToken {p : Productions} {t : Token} {w : List Char}
    (ht : ∀ name, t = .nonterminal name → name ∈ p.keys)
    (hw : Spells p.proxyWords [p.proxyToken t] w) : Spells p.Language [t] w := by
  cases t with
  | nonterminal n => exact Spells.single_iff.mpr ((Spells.single_iff.mp hw).1 (ht n rfl))
  | terminal c =>
    rw [(Spells.single_iff.mp hw).2 c rfl]
    exact .terminal c .nil

/-- What a body spells it spells with nonterminals for its inner terminals. -/
theorem spells_proxyBody {p : Productions} {body : Body} {w : List Char}
    (ht : ∀ c, .terminal c ∈ body.tail → c ∈ p.innerTerminals)
    (hw : Spells p.proxyInner.Language body w) :
    Spells p.proxyInner.Language (p.proxyBody body) w := by
  cases body with
  | nil => exact hw
  | cons t rest =>
    obtain ⟨x, y, rfl, hx, hy⟩ := Spells.cons_iff.mp hw
    refine Spells.cons_iff.mpr ⟨x, y, rfl, hx, hy.map ?_⟩
    intro s hs u hu
    apply spells_proxyToken _ hu
    rintro c rfl
    exact ht c hs

/-- What a body spells with nonterminals for its inner terminals it spells. -/
theorem spells_of_proxyBody {p : Productions} {body : Body} {w : List Char}
    (hkeys : ∀ name, .nonterminal name ∈ body → name ∈ p.keys)
    (hw : Spells p.proxyWords (p.proxyBody body) w) : Spells p.Language body w := by
  cases body with
  | nil =>
    rw [Spells.nil_iff.mp hw]
    exact .nil
  | cons t rest =>
    obtain ⟨x, y, rfl, hx, hy⟩ := Spells.cons_iff.mp hw
    refine Spells.cons_iff.mpr ⟨x, y, rfl, ?_, ?_⟩
    · apply hx.mono
      intro m hm u hu
      rw [← List.mem_singleton.mp hm] at hkeys
      exact hu.1 (hkeys m List.mem_cons_self)
    · apply hy.of_map
      intro s hs u hu
      apply spells_of_proxyToken _ hu
      rintro m rfl
      exact hkeys m (List.mem_cons_of_mem _ hs)

/-- Nonterminals for inner terminals give no words but the old ones and the terminals. -/
theorem proxyWords_of_language {p : Productions} (h : p.Closed) {name : String} {w : List Char}
    (hw : p.proxyInner.Language name w) : p.proxyWords name w := by
  refine language_induction ?_ hw
  intro n body hb v hv
  rcases exists_of_mem_bodies_proxyInner hb with ⟨old, hold, rfl⟩ | ⟨c, _, rfl, rfl⟩
  · constructor
    · intro _
      exact language_of_spells hold (spells_of_proxyBody (fun m hm ↦ h m (.of_mem hold hm)) hv)
    · rintro c rfl
      exact absurd (mem_keys_of_mem_bodies hold) (proxyName_notMem p c)
  · constructor
    · intro hm
      exact absurd hm (proxyName_notMem p c)
    · intro d hd
      rw [← proxyName_injective hd]
      obtain ⟨u, rfl, hu⟩ := Spells.terminal_iff.mp hv
      rw [Spells.nil_iff.mp hu]

/-- Nonterminals for inner terminals change no word of an old nonterminal. -/
theorem language_proxyInner_iff {p : Productions} (h : p.Closed) {name : String} {w : List Char}
    (hn : name ∈ p.keys) : p.proxyInner.Language name w ↔ p.Language name w := by
  constructor
  · intro hw
    exact (proxyWords_of_language h hw).1 hn
  · intro hw
    refine language_induction ?_ hw
    intro n body hb v hv
    have hnew := (mem_bodies_proxyInner (mem_keys_of_mem_bodies hb)).mpr ⟨body, hb, rfl⟩
    apply language_of_spells hnew
    apply spells_proxyBody _ hv
    intro c hc
    exact mem_innerTerminals_iff.mpr ⟨n, body, hb, hc⟩

/-- No tokens but the nonterminals for inner terminals are used in addition. -/
theorem uses_of_uses_proxyInner {p : Productions} {t : Token} (h : p.proxyInner.Uses t) :
    p.Uses t ∨ ∃ c ∈ p.innerTerminals, t = .nonterminal (p.proxyName c) := by
  obtain ⟨name, body, hb, ht⟩ := h
  rcases exists_of_mem_bodies_proxyInner hb with ⟨old, hold, rfl⟩ | ⟨c, hc, rfl, rfl⟩
  · cases old with
    | nil => cases ht
    | cons s rest =>
      rcases List.mem_cons.mp ht with rfl | ht
      · exact Or.inl (.of_mem hold List.mem_cons_self)
      · obtain ⟨r, hr, rfl⟩ := List.mem_map.mp ht
        cases r with
        | nonterminal n => exact Or.inl (.of_mem hold (List.mem_cons_of_mem _ hr))
        | terminal c => exact Or.inr ⟨c, mem_innerTerminals_iff.mpr ⟨name, _, hold, hr⟩, rfl⟩
  · obtain ⟨n, old, hold, hm⟩ := mem_innerTerminals_iff.mp hc
    rw [List.mem_singleton.mp ht]
    exact Or.inl (.of_mem hold (List.mem_of_mem_tail hm))

/-- Nonterminals for inner terminals keep productions closed. -/
theorem Closed.proxyInner {p : Productions} (h : p.Closed) : p.proxyInner.Closed := by
  intro name hu
  rw [mem_keys_proxyInner]
  cases uses_of_uses_proxyInner hu with
  | inl hu => exact Or.inl (h name hu)
  | inr he =>
    obtain ⟨c, hc, he⟩ := he
    cases he
    exact Or.inr ⟨c, hc, rfl⟩

/-- Behind the front of a body there are nonterminals only, and there is no empty body but an old
one. -/
theorem proxyInner_cases {p : Productions} (h : ∀ name front, ¬ p.Leads name front) {name : String}
    {body : Body} (hb : body ∈ p.proxyInner.bodies name) :
    body = [] ∧ [] ∈ p.bodies name ∨
      ∃ c rest, body = .terminal c :: rest ∧ ∀ t ∈ rest, ∃ n, t = .nonterminal n := by
  rcases exists_of_mem_bodies_proxyInner hb with ⟨old, hold, rfl⟩ | ⟨c, _, _, rfl⟩
  · cases old with
    | nil => exact Or.inl ⟨rfl, hold⟩
    | cons s rest =>
      cases s with
      | nonterminal n => exact absurd ⟨_, hold, rfl⟩ (h name n)
      | terminal c =>
        refine Or.inr ⟨c, rest.map p.proxyToken, rfl, ?_⟩
        intro t ht
        obtain ⟨r, _, rfl⟩ := List.mem_map.mp ht
        cases r with
        | nonterminal n => exact ⟨n, rfl⟩
        | terminal d => exact ⟨p.proxyName d, rfl⟩
  · exact Or.inr ⟨c, [], rfl, fun _ ht ↦ absurd ht List.not_mem_nil⟩

end Productions

/-! ### Greibach normal form -/

/-- A grammar is in Greibach normal form when every body is a terminal followed by nonterminals,
or the empty body of an unused start symbol. -/
theorem isGreibach_iff {g : Grammar} :
    g.isGreibach = true ↔ ∀ name, ∀ body ∈ g.bodies name,
      body = [] ∧ name = g.start ∧ ¬ g.productions.Uses (.nonterminal g.start) ∨
        ∃ c rest, body = .terminal c :: rest ∧ ∀ t ∈ rest, ∃ n, t = .nonterminal n := by
  have hterminal : ∀ t : Token, (!t.isTerminal) = true ↔ ∃ n, t = .nonterminal n := by
    intro t
    cases t with
    | terminal c => simp [Token.isTerminal]
    | nonterminal n => simp [Token.isTerminal]
  unfold isGreibach
  rw [List.all_eq_true]
  constructor
  · intro h name body hb
    have hbody := h (name, body) (mem_rules_iff.mpr hb)
    cases body with
    | nil => simpa [← usesStart_iff] using hbody
    | cons t rest =>
      cases t with
      | terminal c =>
        refine Or.inr ⟨c, rest, rfl, fun t ht ↦ ?_⟩
        exact (hterminal t).mp (List.all_eq_true.mp hbody t ht)
      | nonterminal n => cases hbody
  · rintro h ⟨name, body⟩ hr
    rcases h name body (mem_rules_iff.mp hr) with ⟨rfl, rfl, hu⟩ | ⟨c, rest, rfl, hrest⟩
    · simpa [← usesStart_iff] using hu
    · exact List.all_eq_true.mpr fun t ht ↦ (hterminal t).mpr (hrest t ht)

/-- The grammar without left recursion after all its nonterminals were expanded. -/
def expanded (g : Grammar) : Productions :=
  g.removeLeftRecursion.productions.leadingOrder.foldl Productions.expandLeading
    g.removeLeftRecursion.productions

/-- The expanded grammar with nonterminals for its inner terminals. -/
def terminalLed (g : Grammar) : Grammar :=
  { g.removeLeftRecursion with productions := g.expanded.proxyInner }

/-- The expanded grammar has the start symbol of the grammar without left recursion. -/
theorem start_terminalLed (g : Grammar) : g.terminalLed.start = g.removeLeftRecursion.start := by
  rw [terminalLed]

/-- The expanded grammar has nonterminals for its inner terminals. -/
theorem productions_terminalLed (g : Grammar) :
    g.terminalLed.productions = g.expanded.proxyInner := by
  rw [terminalLed]

/-- The Greibach normal form is the reduced expanded grammar. -/
theorem toGreibach_eq (g : Grammar) : g.toGreibach = g.terminalLed.reduce := rfl

section Expanded

variable {g : Grammar} (hg : g.WellFormed)
include hg

/-- All nonterminals of the grammar without left recursion are expanded. -/
theorem expanded_removeLeftRecursion :
    g.removeLeftRecursion.productions.Expanded g.removeLeftRecursion.productions.leadingOrder
      g.expanded := by
  obtain ⟨_, hclosed, _⟩ := wellFormed_iff.mp hg.removeLeftRecursion
  exact Productions.expanded_leadingOrder hclosed (noncontracting_removeLeftRecursion hg).solid
    (not_transGen_leads_removeLeftRecursion hg)

/-- Expansion keeps productions closed. -/
theorem closed_expanded : g.expanded.Closed := by
  obtain ⟨_, hclosed, _⟩ := wellFormed_iff.mp hg.removeLeftRecursion
  have hexpanded := expanded_removeLeftRecursion hg
  intro name hu
  rw [hexpanded.keys]
  exact hclosed name (hexpanded.uses _ hu)

/-- After expansion no body begins with a nonterminal. -/
theorem not_leads_expanded (name front : String) : ¬ g.expanded.Leads name front := by
  have hexpanded := expanded_removeLeftRecursion hg
  intro hl
  refine hexpanded.done_front name (Productions.mem_leadingOrder ?_) front hl
  obtain ⟨body, hb, _⟩ := hl
  rw [← hexpanded.keys]
  exact Productions.mem_keys_of_mem_bodies hb

/-- The start symbol has an entry after expansion. -/
theorem start_mem_keys_expanded : g.removeLeftRecursion.start ∈ Table.keys g.expanded := by
  obtain ⟨hstart, _, _⟩ := wellFormed_iff.mp hg.removeLeftRecursion
  rw [(expanded_removeLeftRecursion hg).keys]
  exact hstart

/-- The expanded grammar is well formed. -/
theorem WellFormed.terminalLed : g.terminalLed.WellFormed := by
  obtain ⟨_, _, hterminals⟩ := wellFormed_iff.mp hg.removeLeftRecursion
  rw [wellFormed_iff, productions_terminalLed, start_terminalLed]
  refine ⟨?_, (closed_expanded hg).proxyInner, ?_⟩
  · exact Productions.mem_keys_proxyInner.mpr (Or.inl (start_mem_keys_expanded hg))
  · intro c hu
    cases Productions.uses_of_uses_proxyInner hu with
    | inl hu => exact hterminals c ((expanded_removeLeftRecursion hg).uses _ hu)
    | inr he =>
      obtain ⟨_, _, he⟩ := he
      cases he

/-- The expanded grammar has the same words. -/
theorem generates_terminalLed_iff {w : List Char} :
    g.terminalLed.Generates w ↔ g.Generates w := by
  obtain ⟨hstart, _, _⟩ := wellFormed_iff.mp hg.removeLeftRecursion
  have hproxies := Productions.language_proxyInner_iff (w := w) (closed_expanded hg)
    (start_mem_keys_expanded hg)
  have hexpanded := (expanded_removeLeftRecursion hg).rewrites.language _ hstart w
  rw [← generates_removeLeftRecursion_iff hg, generates_iff, generates_iff,
    productions_terminalLed, start_terminalLed]
  exact hproxies.trans hexpanded

/-- The expanded grammar is in Greibach normal form. -/
theorem isGreibach_terminalLed : g.terminalLed.isGreibach = true := by
  have hexpanded := expanded_removeLeftRecursion hg
  apply isGreibach_iff.mpr
  intro name body hb
  rw [bodies, productions_terminalLed] at hb
  rw [productions_terminalLed, start_terminalLed]
  rcases Productions.proxyInner_cases (not_leads_expanded hg) hb with ⟨rfl, hempty⟩ | hbody
  · obtain ⟨rfl, _⟩ := noncontracting_removeLeftRecursion hg name
      (hexpanded.rewrites.empty name hempty)
    refine Or.inl ⟨rfl, rfl, fun hu ↦ ?_⟩
    cases Productions.uses_of_uses_proxyInner hu with
    | inl hu => exact hexpanded.solid _ hu hempty
    | inr he =>
      obtain ⟨c, _, he⟩ := he
      have hkey := start_mem_keys_expanded hg
      rw [Token.nonterminal.inj he] at hkey
      exact Productions.proxyName_notMem _ c hkey
  · exact Or.inr hbody

end Expanded

/-- Reduction keeps Greibach normal form. -/
theorem isGreibach_reduce {g : Grammar} (h : g.isGreibach = true) : g.reduce.isGreibach = true := by
  apply isGreibach_iff.mpr
  intro name body hb
  rcases isGreibach_iff.mp h name body (mem_bodies_of_mem_bodies_reduce hb) with
    ⟨rfl, rfl, hu⟩ | hbody
  · exact Or.inl ⟨rfl, rfl, fun hu' ↦ hu (uses_of_uses_reduce hu')⟩
  · exact Or.inr hbody

/-- The Greibach normal form is well formed. -/
theorem WellFormed.toGreibach {g : Grammar} (hg : g.WellFormed) : g.toGreibach.WellFormed :=
  hg.terminalLed.reduce

/-- Every grammar has the words of its Greibach normal form, in which every body is a terminal
followed by nonterminals, or the empty body of a start symbol that occurs in no body. -/
theorem toGreibach_correct {g : Grammar} (hg : g.WellFormed) :
    g.toGreibach.isGreibach = true ∧
      (∀ name, ∀ body ∈ g.toGreibach.bodies name,
        body = [] ∧ name = g.toGreibach.start ∧
            ¬ g.toGreibach.productions.Uses (.nonterminal g.toGreibach.start) ∨
          ∃ c rest, body = .terminal c :: rest ∧ ∀ t ∈ rest, ∃ n, t = .nonterminal n) ∧
        ∀ w, g.toGreibach.Generates w ↔ g.Generates w := by
  have hform : g.toGreibach.isGreibach = true := isGreibach_reduce (isGreibach_terminalLed hg)
  refine ⟨hform, isGreibach_iff.mp hform, fun w ↦ ?_⟩
  rw [toGreibach_eq, generates_reduce_iff, generates_terminalLed_iff hg]

/-- Hidden left recursion does not stand in the way of the Greibach normal form. -/
theorem toGreibach_correct_hiddenRecursion :
    hiddenRecursion.WellFormed ∧ hiddenRecursion.toGreibach.isGreibach = true ∧
      (∀ name, ∀ body ∈ hiddenRecursion.toGreibach.bodies name,
        body = [] ∧ name = hiddenRecursion.toGreibach.start ∧
            ¬ hiddenRecursion.toGreibach.productions.Uses
              (.nonterminal hiddenRecursion.toGreibach.start) ∨
          ∃ c rest, body = .terminal c :: rest ∧ ∀ t ∈ rest, ∃ n, t = .nonterminal n) ∧
        ∀ w, hiddenRecursion.toGreibach.Generates w ↔ hiddenRecursion.Generates w :=
  ⟨by decide, toGreibach_correct (by decide)⟩

end LanguageTheory.Grammar
