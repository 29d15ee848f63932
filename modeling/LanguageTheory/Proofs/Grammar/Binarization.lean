import LanguageTheory.Grammar.Chomsky
import LanguageTheory.Proofs.Grammar.Productions

/-!
# Cutting bodies

While bodies are cut, every nonterminal that was made stands for one sequence of tokens: a proxy for
a terminal, any other for the end of an old body. Names are taken once, so that no two sequences
share a nonterminal, and each such nonterminal gets the one body that its sequence is cut into.
-/

namespace LanguageTheory.Grammar

/-! ### Parts of bodies -/

/-- What a body is cut into: its first token and its rest, and the parts of the rest. -/
inductive Part : Body → Body → Prop where
  | first (t u : Token) (rest : Body) : Part [t] (t :: u :: rest)
  | rest (t u : Token) (rest : Body) : Part (u :: rest) (t :: u :: rest)
  | inner {part : Body} (t : Token) {u : Token} {rest : Body} :
      Part part (u :: rest) → Part part (t :: u :: rest)

namespace Part

/-- Parts of parts are parts. -/
theorem trans {part middle body : Body} (h : Part part middle) (h' : Part middle body) :
    Part part body := by
  induction h' with
  | first => cases h
  | rest t u rest => exact .inner t h
  | inner t _ ih => exact .inner t (ih h)

/-- The tokens of a part are tokens of the body. -/
theorem subset {part body : Body} (h : Part part body) : part ⊆ body := by
  induction h with
  | first t u rest => simp
  | rest t u rest => exact List.subset_cons_self _ _
  | inner t _ ih => exact List.Subset.trans ih (List.subset_cons_self _ _)

/-- Every token of a body of two or more tokens is a part by itself. -/
theorem singleton {t u s : Token} {rest : Body} (h : s ∈ t :: u :: rest) :
    Part [s] (t :: u :: rest) := by
  induction rest generalizing t u with
  | nil =>
    rcases List.mem_cons.mp h with rfl | h
    · exact .first s u []
    · rw [List.mem_singleton.mp h]
      exact .rest t u []
  | cons v rest ih =>
    rcases List.mem_cons.mp h with rfl | h
    · exact .first s u (v :: rest)
    · exact .inner t (ih h)

end Part

/-- Some body has a sequence of tokens as a part. -/
def Productions.HasPart (p : Productions) (part : Body) : Prop :=
  ∃ name, ∃ body ∈ p.bodies name, Part part body

/-- Productions have the parts of their parts. -/
theorem Productions.HasPart.of_part {p : Productions} {part body : Body} (h : p.HasPart body)
    (hpart : Part part body) : p.HasPart part := by
  obtain ⟨name, whole, hb, hbody⟩ := h
  exact ⟨name, whole, hb, hpart.trans hbody⟩

/-- The tokens of a part are used. -/
theorem Productions.HasPart.uses {p : Productions} {part : Body} (h : p.HasPart part) {t : Token}
    (ht : t ∈ part) : p.Uses t := by
  obtain ⟨name, body, hb, hpart⟩ := h
  exact .of_mem hb (hpart.subset ht)

namespace Binarization

/-! ### What nonterminals stand for -/

/-- A nonterminal was made for a sequence of tokens. -/
def Names (b : Binarization) (name : String) (ts : Body) : Prop :=
  (∃ c, ts = [.terminal c] ∧ b.proxies.get? c = some name) ∨
    2 ≤ ts.length ∧ b.suffixes.get? ts = some name

/-- A token stands for itself if it is a nonterminal, and else for what it was made for. -/
def Stands (b : Binarization) (ts : Body) (u : Token) : Prop :=
  ∃ name, u = .nonterminal name ∧ (ts = [u] ∨ b.Names name ts)

/-- A sequence of tokens has one nonterminal at most. -/
theorem Names.unique {b : Binarization} {name other : String} {ts : Body} (h : b.Names name ts)
    (h' : b.Names other ts) : name = other := by
  rcases h with ⟨c, rfl, hc⟩ | ⟨hl, hs⟩
  · rcases h' with ⟨d, he, hd⟩ | ⟨hl, _⟩
    · cases he
      rw [hc] at hd
      exact Option.some.inj hd
    · simp at hl
  · rcases h' with ⟨d, rfl, _⟩ | ⟨_, hs'⟩
    · simp at hl
    · rw [hs] at hs'
      exact Option.some.inj hs'

/-- No nonterminal was made for a nonterminal. -/
theorem Names.ne_singleton {b : Binarization} {name other : String} {ts : Body}
    (h : b.Names name ts) : ts ≠ [.nonterminal other] := by
  rintro rfl
  rcases h with ⟨_, he, _⟩ | ⟨hl, _⟩
  · cases he
  · simp at hl

/-- What a sequence of tokens is cut into: tokens for its first and for its rest, if there is a
rest. -/
def Cuts (b : Binarization) (ts body : Body) : Prop :=
  ts.length < 2 ∧ body = ts ∨
    ∃ t u rest x y, ts = t :: u :: rest ∧ body = [x, y] ∧ b.Stands [t] x ∧ b.Stands (u :: rest) y

/-- A sequence of two or more tokens is cut into two. -/
theorem Cuts.of_cons_cons {b : Binarization} {t u : Token} {rest body : Body}
    (h : b.Cuts (t :: u :: rest) body) :
    ∃ x y, body = [x, y] ∧ b.Stands [t] x ∧ b.Stands (u :: rest) y := by
  rcases h with ⟨hl, _⟩ | ⟨_, _, _, x, y, he, hbody, hx, hy⟩
  · rw [List.length_cons, List.length_cons] at hl
    omega
  · cases he
    exact ⟨x, y, hbody, hx, hy⟩

/-- More nonterminals were made, and the bodies of old nonterminals are as they were. -/
structure Extends (p : Productions) (b b' : Binarization) : Prop where
  names : ∀ {name ts}, b.Names name ts → b'.Names name ts
  bodies_eq : ∀ name ∈ p.keys, b'.productions.bodies name = b.productions.bodies name

/-- Nothing was made. -/
theorem Extends.refl (p : Productions) (b : Binarization) : Extends p b b :=
  ⟨fun h ↦ h, fun _ _ ↦ rfl⟩

/-- One change after another. -/
theorem Extends.trans {p : Productions} {b b' b'' : Binarization} (h : Extends p b b')
    (h' : Extends p b' b'') : Extends p b b'' :=
  ⟨fun hn ↦ h'.names (h.names hn), fun name hk ↦ (h'.bodies_eq name hk).trans (h.bodies_eq name hk)⟩

/-- What a token stands for does not change. -/
theorem Stands.mono {b b' : Binarization} (h : ∀ {name ts}, b.Names name ts → b'.Names name ts)
    {ts : Body} {u : Token} (hu : b.Stands ts u) : b'.Stands ts u := by
  obtain ⟨name, he, hts | hn⟩ := hu
  · exact ⟨name, he, Or.inl hts⟩
  · exact ⟨name, he, Or.inr (h hn)⟩

/-- What a sequence is cut into does not change. -/
theorem Cuts.mono {b b' : Binarization} (h : ∀ {name ts}, b.Names name ts → b'.Names name ts)
    {ts body : Body} (hc : b.Cuts ts body) : b'.Cuts ts body := by
  rcases hc with hshort | ⟨t, u, rest, x, y, hts, hbody, hx, hy⟩
  · exact Or.inl hshort
  · exact Or.inr ⟨t, u, rest, x, y, hts, hbody, hx.mono h, hy.mono h⟩

/-- State of the nonterminals that were made beside the old productions `p`: each stands for one
part of an old body and has what the part is cut into as its only body, which may be missing for the
`pending` ones. -/
structure Named (p : Productions) (pending : List Body) (b : Binarization) : Prop where
  mem_keys : ∀ {name}, name ∈ b.productions.keys ↔ name ∈ p.keys ∨ ∃ ts, b.Names name ts
  fresh : ∀ {name ts}, b.Names name ts → name ∉ p.keys
  injective : ∀ {name ts us}, b.Names name ts → b.Names name us → ts = us
  hasPart : ∀ {name ts}, b.Names name ts → p.HasPart ts
  cuts : ∀ {name ts body}, b.Names name ts → body ∈ b.productions.bodies name → b.Cuts ts body
  filled : ∀ {name ts}, b.Names name ts → ts ∉ pending →
    ∃ body ∈ b.productions.bodies name, b.Cuts ts body

/-- At first there are the old productions only. -/
theorem named_start (p : Productions) :
    Named p [] { productions := p, proxies := ∅, suffixes := ∅ } := by
  have hnone : ∀ name ts,
      ¬ Names { productions := p, proxies := ∅, suffixes := ∅ } name ts := by
    rintro name ts (⟨c, _, hc⟩ | ⟨_, hs⟩)
    · cases hc
    · cases hs
  constructor
  · intro name
    simp [hnone]
  · exact fun h ↦ absurd h (hnone _ _)
  · exact fun h ↦ absurd h (hnone _ _)
  · exact fun h ↦ absurd h (hnone _ _)
  · exact fun h ↦ absurd h (hnone _ _)
  · exact fun h ↦ absurd h (hnone _ _)

/-- A new nonterminal is made for a sequence that had none. -/
theorem Named.make {p : Productions} {pending pending' : List Body} {b b' : Binarization}
    {name : String} {ts : Body} (h : Named p pending b)
    (hnames : ∀ {n us}, b'.Names n us ↔ b.Names n us ∨ n = name ∧ us = ts)
    (hkeys : ∀ {n}, n ∈ b'.productions.keys ↔ n ∈ b.productions.keys ∨ n = name)
    (hother : ∀ n, n ≠ name → b'.productions.bodies n = b.productions.bodies n)
    (hname : name ∉ b.productions.keys) (hpart : p.HasPart ts)
    (hcuts : ∀ body ∈ b'.productions.bodies name, b'.Cuts ts body)
    (hpending : ∀ us, us ∉ pending' → us ∉ pending)
    (hfilled : ts ∉ pending' → ∃ body ∈ b'.productions.bodies name, b'.Cuts ts body) :
    Named p pending' b' ∧ Extends p b b' := by
  have hold : ∀ {n us}, b.Names n us → b'.Names n us := fun hn ↦ hnames.mpr (Or.inl hn)
  have hne : ∀ {n us}, b.Names n us → n ≠ name := by
    rintro n us hn rfl
    exact hname (h.mem_keys.mpr (Or.inr ⟨us, hn⟩))
  have hkey : name ∉ p.keys := fun hk ↦ hname (h.mem_keys.mpr (Or.inl hk))
  refine ⟨⟨?_, ?_, ?_, ?_, ?_, ?_⟩, hold, ?_⟩
  · intro n
    rw [hkeys, h.mem_keys]
    constructor
    · rintro ((hn | ⟨us, hn⟩) | rfl)
      · exact Or.inl hn
      · exact Or.inr ⟨us, hold hn⟩
      · exact Or.inr ⟨ts, hnames.mpr (Or.inr ⟨rfl, rfl⟩)⟩
    · rintro (hn | ⟨us, hn⟩)
      · exact Or.inl (Or.inl hn)
      · rcases hnames.mp hn with hn | ⟨rfl, _⟩
        · exact Or.inl (Or.inr ⟨us, hn⟩)
        · exact Or.inr rfl
  · intro n us hn
    rcases hnames.mp hn with hn | ⟨rfl, _⟩
    · exact h.fresh hn
    · exact hkey
  · intro n us vs hu hv
    rcases hnames.mp hu with hu | ⟨rfl, rfl⟩
    · rcases hnames.mp hv with hv | ⟨rfl, _⟩
      · exact h.injective hu hv
      · exact absurd rfl (hne hu)
    · rcases hnames.mp hv with hv | ⟨_, rfl⟩
      · exact absurd rfl (hne hv)
      · rfl
  · intro n us hn
    rcases hnames.mp hn with hn | ⟨_, rfl⟩
    · exact h.hasPart hn
    · exact hpart
  · intro n us body hn hb
    rcases hnames.mp hn with hn | ⟨rfl, rfl⟩
    · rw [hother n (hne hn)] at hb
      exact (h.cuts hn hb).mono hold
    · exact hcuts body hb
  · intro n us hn hp
    rcases hnames.mp hn with hn | ⟨rfl, rfl⟩
    · rw [hother n (hne hn)]
      obtain ⟨body, hb, hc⟩ := h.filled hn (hpending us hp)
      exact ⟨body, hb, hc.mono hold⟩
    · exact hfilled hp
  · intro n hn
    apply hother
    rintro rfl
    exact hkey hn

/-- A nonterminal whose body was missing gets it. -/
theorem Named.fill {p : Productions} {pending : List Body} {b : Binarization} {name : String}
    {ts body : Body} (h : Named p (ts :: pending) b) (hn : b.Names name ts)
    (hc : b.Cuts ts body) :
    Named p pending { b with productions := b.productions.add name body } ∧
      Extends p b { b with productions := b.productions.add name body } := by
  have hkey : name ∈ b.productions.keys := h.mem_keys.mpr (Or.inr ⟨ts, hn⟩)
  refine ⟨⟨?_, h.fresh, h.injective, h.hasPart, ?_, ?_⟩, fun hm ↦ hm, ?_⟩
  · intro n
    rw [Productions.mem_keys_add]
    constructor
    · rintro (hm | rfl)
      · exact h.mem_keys.mp hm
      · exact h.mem_keys.mp hkey
    · exact fun hm ↦ Or.inl (h.mem_keys.mpr hm)
  · intro n us new hm hb
    rcases Productions.mem_bodies_add.mp hb with hb | ⟨rfl, rfl⟩
    · exact h.cuts hm hb
    · rw [h.injective hm hn]
      exact hc
  · intro n us hm hp
    by_cases he : us = ts
    · subst he
      rw [hm.unique hn]
      exact ⟨body, Productions.mem_bodies_add.mpr (Or.inr ⟨rfl, rfl⟩), hc⟩
    · obtain ⟨old, hb, hold⟩ := h.filled hm (by simp [he, hp])
      exact ⟨old, Productions.mem_bodies_add.mpr (Or.inl hb), hold⟩
  · intro n hk
    apply Productions.bodies_add_of_ne
    rintro rfl
    exact h.fresh hn hk

/-! ### Making nonterminals -/

/-- What the nonterminals stand for when there is one more for a terminal. -/
theorem names_insert_proxies {b : Binarization} {c : Char} {name : String} {q : Productions}
    (hc : b.proxies.get? c = none) {n : String} {us : Body} :
    Names { b with productions := q, proxies := b.proxies.insert c name } n us ↔
      b.Names n us ∨ n = name ∧ us = [.terminal c] := by
  unfold Names
  simp only [Table.get?_insert]
  constructor
  · rintro (⟨d, rfl, hd⟩ | hs)
    · split at hd
      · next he =>
        subst he
        exact Or.inr ⟨(Option.some.inj hd).symm, rfl⟩
      · exact Or.inl (Or.inl ⟨d, rfl, hd⟩)
    · exact Or.inl (Or.inr hs)
  · rintro ((⟨d, rfl, hd⟩ | hs) | ⟨rfl, rfl⟩)
    · have hne : d ≠ c := by
        rintro rfl
        rw [hc] at hd
        cases hd
      exact Or.inl ⟨d, rfl, by rw [if_neg hne, hd]⟩
    · exact Or.inr hs
    · exact Or.inl ⟨c, rfl, if_pos rfl⟩

/-- What the nonterminals stand for when there is one more for the end of a body. -/
theorem names_insert_suffixes {b : Binarization} {ts : Body} {name : String} {q : Productions}
    (hl : 2 ≤ ts.length) (hs : b.suffixes.get? ts = none) {n : String} {us : Body} :
    Names { b with productions := q, suffixes := b.suffixes.insert ts name } n us ↔
      b.Names n us ∨ n = name ∧ us = ts := by
  unfold Names
  simp only [Table.get?_insert]
  constructor
  · rintro (hp | ⟨hl, hs'⟩)
    · exact Or.inl (Or.inl hp)
    · split at hs'
      · next he => exact Or.inr ⟨(Option.some.inj hs').symm, he⟩
      · exact Or.inl (Or.inr ⟨hl, hs'⟩)
  · rintro ((hp | ⟨hl, hs'⟩) | ⟨rfl, rfl⟩)
    · exact Or.inl hp
    · have hne : us ≠ ts := by
        rintro rfl
        rw [hs] at hs'
        cases hs'
      exact Or.inr ⟨hl, by rw [if_neg hne, hs']⟩
    · exact Or.inr ⟨hl, if_pos rfl⟩

/-- A nonterminal for a terminal is made with its body. -/
theorem Named.makeProxy {p : Productions} {pending : List Body} {b : Binarization} {c : Char}
    {name : String} (h : Named p pending b) (hc : b.proxies.get? c = none)
    (hname : name ∉ b.productions.keys) (hpart : p.HasPart [.terminal c]) :
    Named p pending { b with
        productions := b.productions.add name [.terminal c]
        proxies := b.proxies.insert c name } ∧
      Extends p b { b with
        productions := b.productions.add name [.terminal c]
        proxies := b.proxies.insert c name } := by
  have hshort : ∀ b' : Binarization, b'.Cuts [.terminal c] [.terminal c] :=
    fun _ ↦ Or.inl ⟨by simp, rfl⟩
  apply h.make (names_insert_proxies hc) Productions.mem_keys_add
    (fun n hn ↦ Productions.bodies_add_of_ne hn) hname hpart
  · intro body hb
    rcases Productions.mem_bodies_add.mp hb with hb | ⟨_, rfl⟩
    · exact absurd (Productions.mem_keys_of_mem_bodies hb) hname
    · exact hshort _
  · exact fun _ hp ↦ hp
  · intro _
    exact ⟨_, Productions.mem_bodies_add.mpr (Or.inr ⟨rfl, rfl⟩), hshort _⟩

/-- A nonterminal for the end of a body is made without its body. -/
theorem Named.reserve {p : Productions} {pending : List Body} {b : Binarization} {ts : Body}
    {name : String} (h : Named p pending b) (hl : 2 ≤ ts.length)
    (hs : b.suffixes.get? ts = none) (hname : name ∉ b.productions.keys) (hpart : p.HasPart ts) :
    Named p (ts :: pending) { b with
        productions := b.productions.insert name ∅
        suffixes := b.suffixes.insert ts name } ∧
      Extends p b { b with
        productions := b.productions.insert name ∅
        suffixes := b.suffixes.insert ts name } := by
  have hkeys : ∀ {n}, n ∈ (b.productions.insert name ∅).keys ↔
      n ∈ b.productions.keys ∨ n = name := Table.mem_keys_insert
  have hbodies := Productions.bodies_insert b.productions name ∅
  apply h.make (names_insert_suffixes hl hs) hkeys
    (fun n hn ↦ (hbodies n).trans (if_neg hn)) hname hpart
  · intro body hb
    have hempty := (hbodies name).trans (if_pos rfl)
    change body ∈ Productions.bodies (b.productions.insert name ∅) name at hb
    rw [hempty] at hb
    exact absurd hb (OrderedSet.notMem_empty body)
  · exact fun us hp hm ↦ hp (List.mem_cons_of_mem _ hm)
  · exact fun hp ↦ absurd List.mem_cons_self hp

/-- A token of a longer body gets a nonterminal. -/
theorem Named.proxy {p : Productions} {pending : List Body} {b : Binarization} {t : Token}
    (h : Named p pending b) (hpart : p.HasPart [t]) :
    Named p pending (b.proxy t).2 ∧ Extends p b (b.proxy t).2 ∧
      (b.proxy t).2.Stands [t] (b.proxy t).1 := by
  cases t with
  | nonterminal name => exact ⟨h, .refl p b, name, rfl, Or.inl rfl⟩
  | terminal c =>
    cases hc : b.proxies.get? c with
    | some name =>
      simp only [Binarization.proxy, hc]
      exact ⟨h, .refl p b, name, rfl, Or.inr (Or.inl ⟨c, rfl, hc⟩)⟩
    | none =>
      simp only [Binarization.proxy, hc]
      obtain ⟨hnamed, hextends⟩ := h.makeProxy hc (freshName_notMem _ _) hpart
      exact ⟨hnamed, hextends, _, rfl, Or.inr ((names_insert_proxies hc).mpr (Or.inr ⟨rfl, rfl⟩))⟩

/-- The end of a longer body gets a nonterminal. -/
theorem Named.suffix {p : Productions} {pending : List Body} {b : Binarization} {ts : Body}
    (h : Named p pending b) (hne : ts ≠ []) (hpart : p.HasPart ts) :
    Named p pending (b.suffix ts).2 ∧ Extends p b (b.suffix ts).2 ∧
      (b.suffix ts).2.Stands ts (b.suffix ts).1 := by
  induction ts generalizing b pending with
  | nil => exact absurd rfl hne
  | cons t rest ih =>
    cases rest with
    | nil => exact h.proxy hpart
    | cons u rest =>
      have hl : 2 ≤ (t :: u :: rest).length := by simp
      cases hs : b.suffixes.get? (t :: u :: rest) with
      | some name =>
        simp only [Binarization.suffix, hs]
        exact ⟨h, .refl p b, name, rfl, Or.inr (Or.inr ⟨hl, hs⟩)⟩
      | none =>
        simp only [Binarization.suffix, hs]
        obtain ⟨hreserved, hreserve⟩ := h.reserve hl hs (freshName_notMem _ _) hpart
        obtain ⟨hsuffixed, hsuffix, htail⟩ :=
          ih hreserved (List.cons_ne_nil u rest) (hpart.of_part (.rest t u rest))
        obtain ⟨hproxied, hproxy, hfirst⟩ := hsuffixed.proxy (hpart.of_part (.first t u rest))
        have hname := hproxy.names (hsuffix.names
          ((names_insert_suffixes hl hs).mpr (Or.inr ⟨rfl, rfl⟩)))
        obtain ⟨hfilled, hfill⟩ := hproxied.fill hname
          (Or.inr ⟨t, u, rest, _, _, rfl, rfl, hfirst, htail.mono hproxy.names⟩)
        have hextends := ((hreserve.trans hsuffix).trans hproxy).trans hfill
        exact ⟨hfilled, hextends, _, rfl, Or.inr hname⟩

/-! ### Cutting one body -/

/-- Changes of old nonterminals do not matter to those that were made. -/
theorem Named.change {p q : Productions} {pending : List Body} {b : Binarization}
    (h : Named p pending b) (hkeys : ∀ n, n ∈ q.keys ↔ n ∈ b.productions.keys)
    (hbodies : ∀ n, n ∉ p.keys → q.bodies n = b.productions.bodies n) :
    Named p pending { b with productions := q } := by
  refine ⟨?_, h.fresh, h.injective, h.hasPart, ?_, ?_⟩
  · intro n
    rw [hkeys]
    exact h.mem_keys
  · intro n ts body hn hb
    rw [hbodies n (h.fresh hn)] at hb
    exact h.cuts hn hb
  · intro n ts hn hp
    rw [hbodies n (h.fresh hn)]
    exact h.filled hn hp

/-- An old nonterminal gets a body. -/
theorem Named.add {p : Productions} {pending : List Body} {b : Binarization} {head : String}
    {body : Body} (h : Named p pending b) (hkey : head ∈ p.keys) :
    Named p pending { b with productions := b.productions.add head body } := by
  apply h.change
  · intro n
    rw [Productions.mem_keys_add]
    constructor
    · rintro (hn | rfl)
      · exact hn
      · exact h.mem_keys.mpr (Or.inl hkey)
    · exact Or.inl
  · intro n hn
    apply Productions.bodies_add_of_ne
    rintro rfl
    exact hn hkey

/-- An old nonterminal loses a body. -/
theorem Named.without {p : Productions} {pending : List Body} {b : Binarization} {head : String}
    {body : Body} (h : Named p pending b) (hkey : head ∈ p.keys) :
    Named p pending { b with productions := b.productions.without head body } := by
  apply h.change
  · intro n
    rw [Productions.keys_without]
  · intro n hn
    apply Productions.bodies_without_of_ne (h.mem_keys.mpr (Or.inl hkey))
    rintro rfl
    exact hn hkey

/-- The productions after one cut. -/
theorem cut_cons_cons (b : Binarization) (head : String) (t u : Token) (rest : Body) :
    b.cut head (t :: u :: rest) =
      let removed := { b with productions := b.productions.without head (t :: u :: rest) }
      let tail := removed.suffix (u :: rest)
      let first := tail.2.proxy t
      { first.2 with productions := first.2.productions.add head [first.1, tail.1] } := rfl

/-- What one cut does: the body of the head is replaced by what it is cut into. -/
structure CutTo (p : Productions) (b : Binarization) (head : String) (whole : Body)
    (b' : Binarization) (body : Body) : Prop where
  named : Named p [] b'
  names : ∀ {name ts}, b.Names name ts → b'.Names name ts
  cuts : b'.Cuts whole body
  head_bodies : ∀ {old}, old ∈ b'.productions.bodies head ↔
    old ∈ b.productions.bodies head ∧ old ≠ whole ∨ old = body
  other_bodies : ∀ name ∈ p.keys, name ≠ head →
    b'.productions.bodies name = b.productions.bodies name

/-- A body of two or more tokens is cut. -/
theorem Named.cut {p : Productions} {b : Binarization} {head : String} {t u : Token} {rest : Body}
    (h : Named p [] b) (hb : t :: u :: rest ∈ p.bodies head) :
    ∃ body, CutTo p b head (t :: u :: rest) (b.cut head (t :: u :: rest)) body := by
  have hkey : head ∈ p.keys := Productions.mem_keys_of_mem_bodies hb
  have hkey' : head ∈ b.productions.keys := h.mem_keys.mpr (Or.inl hkey)
  have hpart : ∀ {part}, Part part (t :: u :: rest) → p.HasPart part :=
    fun hp ↦ ⟨head, _, hb, hp⟩
  obtain ⟨hsuffixed, hsuffix, htail⟩ := (h.without hkey).suffix
    (List.cons_ne_nil u rest) (hpart (.rest t u rest))
  obtain ⟨hproxied, hproxy, hfirst⟩ := hsuffixed.proxy (hpart (.first t u rest))
  have hextends := hsuffix.trans hproxy
  have htail := htail.mono hproxy.names
  rw [cut_cons_cons]
  dsimp only
  generalize Binarization.suffix _ _ = tail at *
  generalize tail.2.proxy t = first at *
  refine ⟨[first.1, tail.1], hproxied.add hkey, hextends.names,
    Or.inr ⟨t, u, rest, _, _, rfl, rfl, hfirst, htail⟩, ?_, ?_⟩
  · intro old
    rw [Productions.mem_bodies_add, hextends.bodies_eq head hkey,
      Productions.mem_bodies_without_self hkey']
    simp
  · intro name hn hne
    rw [Productions.bodies_add_of_ne hne, hextends.bodies_eq name hn]
    exact Productions.bodies_without_of_ne hkey' hne

/-! ### Cutting all bodies -/

/-- State when the bodies in `todo` are still to be cut: every other body of an old nonterminal is
what an old body was cut into. -/
structure Cutting (p : Productions) (todo : List (String × Body)) (b : Binarization) : Prop where
  named : Named p [] b
  cuts : ∀ {name body}, name ∈ p.keys → body ∈ b.productions.bodies name →
    (name, body) ∈ todo ∨ ∃ whole ∈ p.bodies name, b.Cuts whole body
  filled : ∀ {name whole}, whole ∈ p.bodies name →
    whole ∈ b.productions.bodies name ∨ ∃ body ∈ b.productions.bodies name, b.Cuts whole body

/-- Old bodies are not what other bodies are cut into. -/
theorem Named.eq_of_cuts {p : Productions} {pending : List Body} {b : Binarization}
    {name : String} {whole body : Body} (h : Named p pending b) (hclosed : p.Closed)
    (hb : body ∈ p.bodies name) (hc : b.Cuts whole body) : whole = body := by
  have hstands : ∀ {ts u}, u ∈ body → b.Stands ts u → ts = [u] := by
    rintro ts u hu ⟨n, rfl, hts | hn⟩
    · exact hts
    · exact absurd (hclosed n (.of_mem hb hu)) (h.fresh hn)
  rcases hc with ⟨_, rfl⟩ | ⟨t, u, rest, x, y, rfl, rfl, hx, hy⟩
  · rfl
  · have ht := hstands (by simp) hx
    have hu := hstands (by simp) hy
    cases ht
    cases hu
    rfl

/-- A body without a rest is cut by leaving it as it is. -/
theorem Cutting.of_length_lt {p : Productions} {todo : List (String × Body)} {b : Binarization}
    {head : String} {whole : Body} (h : Cutting p ((head, whole) :: todo) b)
    (hb : whole ∈ p.bodies head) (hl : whole.length < 2) : Cutting p todo b := by
  refine ⟨h.named, ?_, h.filled⟩
  intro name body hn hbody
  rcases h.cuts hn hbody with hm | hc
  · rcases List.mem_cons.mp hm with he | hm
    · cases he
      exact Or.inr ⟨whole, hb, Or.inl ⟨hl, rfl⟩⟩
    · exact Or.inl hm
  · exact Or.inr hc

section CutTo

variable {p : Productions} {todo : List (String × Body)} {b b' : Binarization} {head : String}
  {whole new : Body} (h : Cutting p ((head, whole) :: todo) b) (hcut : CutTo p b head whole b' new)
  (hb : whole ∈ p.bodies head)
include h hcut hb

/-- After one more cut every body is still to be cut or what an old body was cut into. -/
theorem Cutting.cuts_of_cutTo {name : String} {body : Body} (hn : name ∈ p.keys)
    (hbody : body ∈ b'.productions.bodies name) :
    (name, body) ∈ todo ∨ ∃ old ∈ p.bodies name, b'.Cuts old body := by
  have hold : body ∈ b.productions.bodies name → (name, body) ≠ (head, whole) →
      (name, body) ∈ todo ∨ ∃ old ∈ p.bodies name, b'.Cuts old body := by
    intro hbody hne
    rcases h.cuts hn hbody with hm | ⟨old, hold, hc⟩
    · exact Or.inl ((List.mem_cons.mp hm).resolve_left hne)
    · exact Or.inr ⟨old, hold, hc.mono hcut.names⟩
  by_cases hne : name = head
  · subst hne
    rcases hcut.head_bodies.mp hbody with ⟨hbody, hother⟩ | rfl
    · exact hold hbody fun he ↦ hother (Prod.mk.inj he).2
    · exact Or.inr ⟨whole, hb, hcut.cuts⟩
  · rw [hcut.other_bodies name hn hne] at hbody
    exact hold hbody fun he ↦ hne (Prod.mk.inj he).1

/-- After one more cut every old body is there or was cut. -/
theorem Cutting.filled_of_cutTo (hclosed : p.Closed) {name : String} {old : Body}
    (hold : old ∈ p.bodies name) :
    old ∈ b'.productions.bodies name ∨ ∃ body ∈ b'.productions.bodies name, b'.Cuts old body := by
  by_cases hne : name = head
  · subst hne
    by_cases he : old = whole
    · subst he
      exact Or.inr ⟨new, hcut.head_bodies.mpr (Or.inr rfl), hcut.cuts⟩
    · rcases h.filled hold with hm | ⟨body, hbody, hc⟩
      · exact Or.inl (hcut.head_bodies.mpr (Or.inl ⟨hm, he⟩))
      · refine Or.inr ⟨body, hcut.head_bodies.mpr (Or.inl ⟨hbody, ?_⟩), hc.mono hcut.names⟩
        rintro rfl
        exact he (h.named.eq_of_cuts hclosed hb hc)
  · rw [hcut.other_bodies name (Productions.mem_keys_of_mem_bodies hold) hne]
    rcases h.filled hold with hm | ⟨body, hbody, hc⟩
    · exact Or.inl hm
    · exact Or.inr ⟨body, hbody, hc.mono hcut.names⟩

end CutTo

/-- The next body is cut. -/
theorem Cutting.cut {p : Productions} {todo : List (String × Body)} {b : Binarization}
    {head : String} {whole : Body} (h : Cutting p ((head, whole) :: todo) b)
    (hclosed : p.Closed) (hb : whole ∈ p.bodies head) : Cutting p todo (b.cut head whole) := by
  match whole, h, hb with
  | [], h, hb => exact h.of_length_lt hb (by simp)
  | [t], h, hb => exact h.of_length_lt hb (by simp)
  | t :: u :: rest, h, hb =>
    obtain ⟨new, hcut⟩ := h.named.cut hb
    exact ⟨hcut.named, h.cuts_of_cutTo hcut hb, h.filled_of_cutTo hcut hb hclosed⟩

/-- All bodies are cut. -/
theorem Cutting.foldl_cut {p : Productions} {todo : List (String × Body)} {b : Binarization}
    (h : Cutting p todo b) (hclosed : p.Closed)
    (htodo : ∀ name body, (name, body) ∈ todo → body ∈ p.bodies name) :
    Cutting p [] (todo.foldl (fun b rule ↦ b.cut rule.1 rule.2) b) := by
  induction todo generalizing b with
  | nil => exact h
  | cons rule todo ih =>
    obtain ⟨head, body⟩ := rule
    apply ih (h.cut hclosed (htodo head body List.mem_cons_self))
    intro name old hm
    exact htodo name old (List.mem_cons_of_mem _ hm)

/-- At first no body is cut. -/
theorem cutting_start {p : Productions} {todo : List (String × Body)}
    (h : ∀ name, ∀ body ∈ p.bodies name, (name, body) ∈ todo) :
    Cutting p todo { productions := p, proxies := ∅, suffixes := ∅ } where
  named := named_start p
  cuts _ hb := Or.inl (h _ _ hb)
  filled hb := Or.inl hb

end Binarization

end LanguageTheory.Grammar
