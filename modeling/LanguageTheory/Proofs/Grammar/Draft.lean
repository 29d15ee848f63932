import LanguageTheory.Grammar.Draft
import LanguageTheory.Proofs.Collections.OrderedSet
import LanguageTheory.Proofs.Grammar.Productions
import LanguageTheory.Proofs.Grammar.RuleMeaning

/-!
# Grammars of drafts

The grammar of a draft is well formed and well named, and its start symbol is listed first. A
well-formed grammar is read back from its own rule text exactly when it is well named; the only
thing that reading changes is that the start symbol comes first.
-/

namespace LanguageTheory

namespace Grammar

namespace Productions

variable {p : Productions} {name : String} {names : List String} {rules : List (String × Body)}
  {body : Body}

/-! ### Declared names -/

/-- Productions with entries for more nonterminals, without bodies if they are new. -/
def addNames (p : Productions) (names : List String) : Productions :=
  names.foldl (fun p name ↦ p.upsert name fun bodies ↦ bodies.getD ∅) p

/-- The new names follow the old ones. -/
theorem keySet_addNames (p : Productions) (names : List String) :
    Table.keySet (p.addNames names) = (Table.keySet p).insertMany names := by
  induction names generalizing p with
  | nil => rfl
  | cons name names ih =>
    change Table.keySet (addNames (p.upsert name _) names) = _
    rw [ih, Table.keySet_upsert]
    rfl

/-- The names of the empty table are those that were added. -/
theorem mem_keys_addNames_empty : name ∈ Table.keys (addNames ∅ names) ↔ name ∈ names := by
  have h : name ∈ Table.keySet (addNames ∅ names) ↔ name ∈ names := by
    rw [keySet_addNames, OrderedSet.mem_insertMany]
    exact or_iff_right List.not_mem_nil
  exact h

/-- Names that are added to the empty table have no bodies. -/
theorem get?_addNames_empty (h : name ∈ names) :
    Table.get? (addNames ∅ names) name = some ∅ := by
  have hempty : ∀ {p : Productions}, (∀ name s, p.get? name = some s → s = ∅) →
      ∀ name s, Table.get? (p.addNames names) name = some s → s = ∅ := by
    clear h
    induction names with
    | nil => exact fun hp ↦ hp
    | cons first names ih =>
      intro p hp
      refine ih fun name s hs ↦ ?_
      rw [Table.get?_upsert] at hs
      split at hs
      · cases hfirst : p.get? first with
        | none => simpa [hfirst] using hs.symm
        | some s' =>
          obtain rfl := hp first s' hfirst
          simpa [hfirst] using hs.symm
      · exact hp name s hs
  obtain ⟨s, hs⟩ := Table.mem_keys_iff.mp (mem_keys_addNames_empty.mpr h)
  rw [hs, hempty (fun name s hs ↦ by cases hs) name s hs]

/-! ### Listed rules -/

/-- Productions with more bodies. -/
def addRules (p : Productions) (rules : List (String × Body)) : Productions :=
  rules.foldl (fun p rule ↦ p.add rule.1 rule.2) p

/-- Bodies of listed nonterminals leave the names as they are. -/
theorem keySet_addRules (h : ∀ rule ∈ rules, rule.1 ∈ p.keys) :
    Table.keySet (p.addRules rules) = Table.keySet p := by
  induction rules generalizing p with
  | nil => rfl
  | cons rule rules ih =>
    change Table.keySet (addRules (p.add rule.1 rule.2) rules) = _
    rw [ih fun r hr ↦ mem_keys_add.mpr (.inl (h r (List.mem_cons_of_mem _ hr))), add,
      Table.keySet_upsert]
    exact OrderedSet.insert_of_mem (h rule List.mem_cons_self)

/-- Names without bodies have the bodies that are added. -/
theorem mem_bodies_addRules :
    body ∈ ((addNames ∅ names).addRules rules).bodies name ↔ (name, body) ∈ rules := by
  unfold addRules
  rw [foldl_iff (fun p ↦ body ∈ Productions.bodies p name)
    fun rule ↦ name = rule.1 ∧ body = rule.2]
  · have hnone : body ∉ (addNames ∅ names).bodies name := by
      intro hb
      obtain ⟨bodies, hbodies, hb⟩ := mem_bodies_iff.mp hb
      have hname := mem_keys_addNames_empty.mp (Table.mem_keys_iff.mpr ⟨bodies, hbodies⟩)
      rw [get?_addNames_empty hname] at hbodies
      cases hbodies
      exact OrderedSet.notMem_empty body hb
    simp [hnone]
  · exact fun _ _ ↦ mem_bodies_add

/-- The new bodies of a nonterminal follow the old ones, in the order of the rules. -/
theorem get?_addRules {s : OrderedSet Body} (h : p.get? name = some s) :
    Table.get? (p.addRules rules) name =
      some (s.insertMany ((rules.filter fun rule ↦ rule.1 = name).map Prod.snd)) := by
  induction rules generalizing p s with
  | nil => exact h
  | cons rule rules ih =>
    change Table.get? (addRules (p.add rule.1 rule.2) rules) name = _
    by_cases hname : rule.1 = name
    · subst hname
      have hnew : Table.get? (p.add rule.1 rule.2) rule.1 = some (s.insert rule.2) := by
        rw [add, Table.get?_upsert, if_pos rfl, h]
        rfl
      rw [ih hnew, List.filter_cons_of_pos (by simp)]
      rfl
    · have hold : Table.get? (p.add rule.1 rule.2) name = some s := by
        rw [add, Table.get?_upsert, if_neg (Ne.symm hname), h]
      rw [ih hold, List.filter_cons_of_neg (by simpa using hname)]

end Productions

/-! ### Rules of a grammar -/

variable {g h : Grammar} {name : String}

/-- The rules of a nonterminal are its bodies, in their order. -/
theorem filter_rules (g : Grammar) (name : String) :
    (g.rules.filter fun rule ↦ rule.1 = name).map Prod.snd = g.bodies name := by
  have hlookup : ∀ es : List (String × OrderedSet Body), (es.map Prod.fst).Nodup →
      ((es.flatMap fun e ↦ e.2.toList.map fun body ↦ (e.1, body)).filter
        fun rule ↦ rule.1 = name).map Prod.snd = ((es.lookup name).getD ∅).toList := by
    intro es hes
    induction es with
    | nil => rfl
    | cons e es ih =>
      obtain ⟨head, bodies⟩ := e
      rw [List.map_cons, List.nodup_cons] at hes
      rw [List.flatMap_cons, List.filter_append, List.map_append, ih hes.2, List.lookup_cons]
      by_cases hname : head = name
      · subst hname
        have hnone : es.lookup head = none := by
          rw [List.lookup_eq_none_iff]
          intro e he
          simpa using fun heq ↦ hes.1 (List.mem_map.mpr ⟨e, he, heq.symm⟩)
        simp [hnone, List.filter_map, Function.comp_def]
        rfl
      · have hfalse : (name == head) = false := by simpa using Ne.symm hname
        simp [hfalse, hname, List.filter_map, Function.comp_def]
  exact hlookup g.productions.entries g.productions.nodup_keys

/-- The same grammar with its start symbol listed first. -/
def startFirst (g : Grammar) : Grammar :=
  { g with productions := (Table.ofList [(g.start, ∅)]).insertMany g.productions.entries }

/-- The bodies stay the same. -/
theorem get?_startFirst (hg : g.WellFormed) (name : String) :
    g.startFirst.productions.get? name = g.productions.get? name := by
  have hsingle : Table.get? (Table.ofList [(g.start, (∅ : OrderedSet Body))]) name =
      if name = g.start then some ∅ else none := Table.get?_insert ∅ g.start ∅ name
  rw [startFirst, Table.get?_insertMany_entries, hsingle]
  by_cases hname : name = g.start
  · subst hname
    obtain ⟨bodies, hb⟩ := Table.mem_keys_iff.mp hg.start_mem
    rw [hb, Option.some_or]
  · rw [if_neg hname, Option.or_none]

/-- The start symbol comes first, and the other names follow in their order. -/
theorem keySet_startFirst (g : Grammar) : g.startFirst.productions.keySet =
    OrderedSet.ofList (g.start :: g.nonterminals) := Table.keySet_insertMany _ _

/-- Nothing changes if the start symbol comes first already. -/
theorem startFirst_eq_self (hg : g.WellFormed) (h : g.nonterminals.head? = some g.start) :
    g.startFirst = g := by
  have hkeys : g.startFirst.productions.keySet = g.productions.keySet := by
    obtain ⟨rest, hrest⟩ := List.head?_eq_some_iff.mp h
    apply OrderedSet.ext
    have htwice : OrderedSet.ofList (g.start :: g.start :: rest) =
        OrderedSet.ofList (g.start :: rest) := by
      change (((∅ : OrderedSet String).insert g.start).insert g.start).insertMany rest = _
      rw [OrderedSet.insert_of_mem (by simp)]
      rfl
    rw [keySet_startFirst, hrest, htwice, ← hrest]
    exact OrderedSet.toList_ofList_of_nodup g.productions.nodup_keys
  have hproductions : g.startFirst.productions = g.productions :=
    Table.ext_get? hkeys (get?_startFirst hg)
  cases g
  exact congrArg (Grammar.mk _ _) hproductions

/-- The order of the names is all that changes. -/
theorem startFirst_equiv (hg : g.WellFormed) : g.startFirst ≈ g := by
  refine ⟨rfl, fun c ↦ Iff.rfl, fun name ↦ ?_, fun name v hv w hw ↦ ?_⟩
  · rw [Table.mem_keys_iff, Table.mem_keys_iff, get?_startFirst hg]
  · rw [get?_startFirst hg] at hv
    cases hv.symm.trans hw
    exact fun body ↦ Iff.rfl

end Grammar

namespace GrammarDraft

open Grammar

variable {d : GrammarDraft} {g : Grammar} {terminals : Alphabet} {p q : Productions}
  {name : String} {names : List String} {rules : List RuleLine} {t : Token} {cs : List Char}

/-! ### The steps of the check -/

/-- Terminals are read as they are, unless one of them has a meaning of its own. -/
theorem readTerminals_eq_ok_iff : readTerminals cs = .ok terminals ↔
    terminals.toList = cs ∧ ∀ c ∈ terminals, isReserved c = false ∧ c ≠ epsilonChar := by
  unfold readTerminals
  rw [bind_eq_ok_iff]
  constructor
  · rintro ⟨a, ha, h⟩
    split at h
    · cases h
    · next hnone =>
      cases h
      obtain ⟨rfl, hepsilon⟩ := Alphabet.ofChars_eq_ok_iff.mp ha
      refine ⟨rfl, fun c hc ↦ ⟨?_, ?_⟩⟩
      · simpa using List.find?_eq_none.mp hnone c hc
      · rintro rfl
        exact hepsilon hc
  · rintro ⟨rfl, h⟩
    refine ⟨terminals, Alphabet.ofChars_eq_ok_iff.mpr ⟨rfl, fun hc ↦ (h _ hc).2 rfl⟩, ?_⟩
    have hnone : terminals.toList.find? isReserved = none :=
      List.find?_eq_none.mpr fun c hc ↦ by simp [(h c hc).1]
    rw [hnone]
    rfl

/-- A name is declared when it is valid and no terminal. -/
theorem declare_eq_ok_iff : declare terminals p name = .ok q ↔
    (isValidName name = true ∧ ∀ c ∈ terminals, name ≠ c.toString) ∧ q = p.addNames [name] := by
  have hq : ∀ {x : Productions}, (Except.ok x : Except Error Productions) = .ok q ↔ q = x := by
    intro x
    rw [Except.ok.injEq, eq_comm]
  unfold declare
  split
  · next hvalid =>
    simp only [hvalid, true_and, ne_eq, eq_toString_iff]
    split
    · next c hc =>
      rw [hc]
      split
      · next hmem =>
        simp only [reduceCtorEq, false_iff, not_and]
        exact fun h ↦ absurd rfl (h c hmem)
      · next hmem =>
        rw [hq]
        refine (and_iff_right ?_).symm
        intro d hd hcd
        exact hmem ((List.cons.inj hcd).1 ▸ hd)
    · next hlong =>
      rw [hq]
      exact (and_iff_right fun c _ ↦ hlong c).symm
  · next hvalid => simp [hvalid]

/-- Names are declared when all of them are valid and no terminals. -/
theorem foldlM_declare_eq_ok_iff : names.foldlM (declare terminals) p = .ok q ↔
    (∀ name ∈ names, isValidName name = true ∧ ∀ c ∈ terminals, name ≠ c.toString) ∧
      q = p.addNames names := by
  induction names generalizing p with
  | nil =>
    constructor
    · intro h
      cases h
      exact ⟨fun _ hname ↦ absurd hname List.not_mem_nil, rfl⟩
    · rintro ⟨_, rfl⟩
      rfl
  | cons name names ih =>
    rw [List.foldlM_cons, bind_eq_ok_iff, List.forall_mem_cons]
    constructor
    · rintro ⟨p', hp, h⟩
      obtain ⟨hname, rfl⟩ := declare_eq_ok_iff.mp hp
      obtain ⟨hnames, rfl⟩ := ih.mp h
      exact ⟨⟨hname, hnames⟩, rfl⟩
    · rintro ⟨⟨hname, hnames⟩, rfl⟩
      exact ⟨_, declare_eq_ok_iff.mpr ⟨hname, rfl⟩, ih.mpr ⟨hnames, rfl⟩⟩

/-- A token is checked to be declared. -/
theorem checkToken_eq_ok_iff : checkToken terminals p t = .ok () ↔ Declared terminals p t := by
  cases t <;> simp [checkToken, Declared]

/-- The names of a draft, given its rules. -/
def declaredNames (d : GrammarDraft) (rules : List RuleLine) : List String :=
  d.start :: d.nonterminals ++ rules.map RuleLine.head ++ d.productions.map Prod.fst

/-- The grammar of a draft has the names and rules of its parts, if each of them is accepted. -/
theorem toGrammar_eq_ok_iff : d.toGrammar = .ok g ↔ ∃ terminals rules read,
    readTerminals d.terminals = .ok terminals ∧
    List.Forall₂ (fun text r ↦ RuleLine.read text = .ok r) d.rules rules ∧
    (∀ name ∈ d.declaredNames rules, isValidName name = true ∧ ∀ c ∈ terminals, name ≠ c.toString) ∧
    List.Forall₂ (fun r listed ↦ ∃ bodies,
      r.readBodies terminals (Productions.addNames ∅ (d.declaredNames rules)) = .ok bodies ∧
        listed = bodies.map fun body ↦ (r.head, body)) rules read ∧
    (∀ rule ∈ d.productions, ∀ t ∈ rule.2,
      Declared terminals (Productions.addNames ∅ (d.declaredNames rules)) t) ∧
    g = {
      start := d.start
      terminals := terminals
      productions := (Productions.addNames ∅ (d.declaredNames rules)).addRules
        (read.flatten ++ d.productions) } := by
  unfold toGrammar
  simp only [bind_eq_ok_iff, mapM_eq_ok_iff, foldlM_declare_eq_ok_iff]
  have hresult : ∀ {α : Type} {x y : α}, (pure x : Except Error α) = .ok y ↔ y = x := by
    intro α x y
    exact Except.ok.injEq x y ▸ eq_comm
  constructor
  · rintro ⟨terminals, hterminals, rules, hrules, _, ⟨hnames, rfl⟩, read, hread, ⟨⟩, hchecked, hg⟩
    refine ⟨terminals, rules, read, hterminals, hrules, hnames, ?_, fun rule hr t ht ↦ ?_,
      hresult.mp hg⟩
    · simpa only [hresult, declaredNames] using hread
    · have htokens := forM_eq_ok_iff.mp hchecked rule hr
      exact checkToken_eq_ok_iff.mp (forM_eq_ok_iff.mp htokens t ht)
  · rintro ⟨terminals, rules, read, hterminals, hrules, hnames, hread, hchecked, rfl⟩
    refine ⟨terminals, hterminals, rules, hrules, _, ⟨hnames, rfl⟩, read, ?_, (), ?_, rfl⟩
    · simpa only [hresult, declaredNames] using hread
    · refine forM_eq_ok_iff.mpr fun rule hr ↦ forM_eq_ok_iff.mpr fun t ht ↦ ?_
      exact checkToken_eq_ok_iff.mpr (hchecked rule hr t ht)

/-! ### Built grammars -/

/-- A rule of lines that were read has the head of its line and one of its bodies. -/
theorem exists_line_of_mem_flatten {read : List (List (String × Body))} {rule : String × Body}
    (hread : List.Forall₂ (fun r listed ↦ ∃ bodies, r.readBodies terminals p = .ok bodies ∧
      listed = bodies.map fun body ↦ (r.head, body)) rules read) (h : rule ∈ read.flatten) :
    ∃ r ∈ rules, r.head = rule.1 ∧
      ∃ bodies, r.readBodies terminals p = .ok bodies ∧ rule.2 ∈ bodies := by
  obtain ⟨listed, hlisted, hrule⟩ := List.mem_flatten.mp h
  obtain ⟨r, hr, bodies, hbodies, rfl⟩ := exists_mem_of_forall₂ hread hlisted
  obtain ⟨body, hb, rfl⟩ := List.mem_map.mp hrule
  exact ⟨r, hr, rfl, bodies, hbodies, hb⟩

/-- The heads of all rules are among the names, so that the rules add no names. -/
theorem keySet_addRules_declaredNames (d : GrammarDraft) {read : List (List (String × Body))}
    (hread : List.Forall₂ (fun r listed ↦ ∃ bodies, r.readBodies terminals p = .ok bodies ∧
      listed = bodies.map fun body ↦ (r.head, body)) rules read) :
    Table.keySet ((Productions.addNames ∅ (d.declaredNames rules)).addRules
        (read.flatten ++ d.productions)) =
      Table.keySet (Productions.addNames ∅ (d.declaredNames rules)) := by
  refine Productions.keySet_addRules fun rule hrule ↦ ?_
  refine Productions.mem_keys_addNames_empty.mpr (List.mem_append.mpr ?_)
  rcases List.mem_append.mp hrule with hrule | hrule
  · obtain ⟨r, hr, hhead, _⟩ := exists_line_of_mem_flatten hread hrule
    exact .inl (List.mem_append_right _ (List.mem_map.mpr ⟨r, hr, hhead⟩))
  · exact .inr (List.mem_map_of_mem hrule)

/-- What was accepted: the names in the order in which they were first given, and bodies of declared
tokens. -/
theorem exists_names_of_toGrammar (h : d.toGrammar = .ok g) : ∃ names : List String,
    g.productions.keySet = OrderedSet.ofList (g.start :: names) ∧
      (∀ name ∈ g.start :: names,
        isValidName name = true ∧ ∀ c ∈ g.terminals, name ≠ c.toString) ∧
      (∀ c ∈ g.terminals, isReserved c = false ∧ c ≠ epsilonChar) ∧
      ∀ t, g.productions.Uses t → Declared g.terminals g.productions t := by
  obtain ⟨terminals, rules, read, hterminals, _, hnames, hread, hchecked, rfl⟩ :=
    toGrammar_eq_ok_iff.mp h
  have hkeys := keySet_addRules_declaredNames d hread
  refine ⟨_, hkeys.trans (Productions.keySet_addNames ∅ _), hnames,
    (readTerminals_eq_ok_iff.mp hterminals).2, ?_⟩
  rintro t ⟨name, body, hb, ht⟩
  have hdeclared : Declared terminals (.addNames ∅ (d.declaredNames rules)) t := by
    rcases List.mem_append.mp (Productions.mem_bodies_addRules.mp hb) with hrule | hrule
    · obtain ⟨_, _, _, _, hbodies, hlisted⟩ := exists_line_of_mem_flatten hread hrule
      obtain ⟨parts, -, hparts⟩ := readBodies_eq_ok_iff.mp hbodies
      obtain ⟨_, -, -, -, hdeclared⟩ := exists_mem_of_forall₂ hparts hlisted
      exact hdeclared t ht
    · exact hchecked _ hrule t ht
  cases t with
  | terminal c => exact hdeclared
  | nonterminal m => exact (congrArg (m ∈ ·.toList) hkeys).mpr hdeclared

/-- The grammar of a draft is well formed. -/
theorem wellFormed_of_toGrammar (h : d.toGrammar = .ok g) : g.WellFormed := by
  obtain ⟨names, hkeys, _, _, hdeclared⟩ := exists_names_of_toGrammar h
  have hstart : g.start ∈ g.productions.keySet := by
    rw [hkeys, OrderedSet.mem_ofList]
    exact List.mem_cons_self
  exact wellFormed_iff.mpr ⟨hstart, fun name ↦ hdeclared _, fun c ↦ hdeclared _⟩

/-- The grammar of a draft is well named. -/
theorem wellNamed_of_toGrammar (h : d.toGrammar = .ok g) : g.WellNamed := by
  obtain ⟨names, hkeys, hnames, hterminals, _⟩ := exists_names_of_toGrammar h
  have hmem : ∀ name ∈ g.productions.keys, name ∈ g.start :: names := by
    intro name hname
    have hname : name ∈ g.productions.keySet := hname
    rwa [hkeys, OrderedSet.mem_ofList] at hname
  exact ⟨hterminals, fun name hname ↦ (hnames name (hmem name hname)).1,
    fun c hc hname ↦ (hnames _ (hmem _ hname)).2 c hc rfl⟩

/-- The start symbol of the grammar of a draft is its first nonterminal. -/
theorem head?_nonterminals_of_toGrammar (h : d.toGrammar = .ok g) :
    g.nonterminals.head? = some g.start := by
  obtain ⟨names, hkeys, _, _, _⟩ := exists_names_of_toGrammar h
  have hprefix : [g.start] <+: g.productions.keySet.toList := by
    rw [hkeys]
    exact OrderedSet.prefix_toList_insertMany (OrderedSet.singleton g.start) names
  obtain ⟨rest, hrest⟩ := hprefix
  exact List.head?_eq_some_iff.mpr ⟨rest, hrest.symm⟩

end GrammarDraft

namespace Grammar

variable {g : Grammar}

/-! ### Printed grammars -/

/-- Every body of an entry has declared tokens only. -/
theorem WellFormed.declared_of_mem_entries (hg : g.WellFormed) {e : String × OrderedSet Body}
    (he : e ∈ g.productions.entries) :
    ∀ body ∈ e.2.toList, ∀ t ∈ body, Declared g.terminals g.productions t :=
  hg.declared e.2 (List.mem_map_of_mem he)

/-- The lines of a printed grammar are those of its nonterminals. -/
theorem WellNamed.lines_render (hg : g.WellFormed) (h : g.WellNamed) :
    (lines g.render.toList).filter (fun l ↦ !(trim l).isEmpty) =
      g.productions.entries.map fun e ↦ lineText e.1 e.2.toList := by
  have hrender : g.render.toList =
      (g.productions.entries.map fun e ↦ lineText e.1 e.2.toList).flatMap fun l ↦ l ++ ['\n'] := by
    simp [render, String.toList_join, toList_renderRule, List.flatMap_map]
  have hblank : ∀ l ∈ g.productions.entries.map fun e ↦ lineText e.1 e.2.toList,
      ∀ c ∈ l, c = ' ' ∨ isBlank c = false := by
    intro l hl c hc
    obtain ⟨e, he, rfl⟩ := List.mem_map.mp hl
    exact h.mem_lineText (List.mem_map_of_mem he) (hg.declared_of_mem_entries he) hc
  rw [hrender, lines_flatMap, List.filter_eq_self]
  · intro l hl
    obtain ⟨e, _, rfl⟩ := List.mem_map.mp hl
    have hcolon : ':' ∈ lineText e.1 e.2.toList := by simp [lineText]
    have hne : trim (lineText e.1 e.2.toList) ≠ [] := fun hempty ↦
      absurd (trim_eq_nil_iff.mp hempty _ hcolon) (by decide)
    simpa using hne
  · intro l hl
    constructor
    · intro hc
      exact absurd (hblank l hl _ hc) (by decide)
    · intro hc
      exact absurd (hblank l hl _ (List.mem_of_getLast? hc)) (by decide)

/-- The lines of a printed grammar, read and cut into names and bodies. -/
def printedLines (g : Grammar) : List RuleLine :=
  g.productions.entries.map fun e ↦
    ⟨String.ofList (lineText e.1 e.2.toList), e.1, bodiesText e.2.toList⟩

/-- The draft of which a printed grammar is made. -/
def printedDraft (g : Grammar) : GrammarDraft where
  start := g.start
  terminals := g.terminals.toList
  rules := g.printedLines.map RuleLine.text

/-- The names of the draft are those of the grammar, with the start symbol first. -/
theorem declaredNames_printedDraft (g : Grammar) :
    g.printedDraft.declaredNames g.printedLines = g.start :: g.nonterminals := by
  simp [GrammarDraft.declaredNames, printedDraft, printedLines, nonterminals, Table.keys]

/-- A printed grammar is read as its draft. -/
theorem WellNamed.parse_eq_toGrammar (hg : g.WellFormed) (h : g.WellNamed) :
    parse g.start g.terminals.toList g.render = g.printedDraft.toGrammar := by
  simp only [parse, GrammarDraft.addRuleText, GrammarDraft.addRules, GrammarDraft.addTerminals,
    h.lines_render hg, printedDraft, printedLines, List.map_map]
  rfl

/-- The productions of the draft are those of the grammar, with the start symbol first. -/
theorem productions_printedDraft (hg : g.WellFormed) :
    (Productions.addNames ∅ (g.start :: g.nonterminals)).addRules g.rules =
      g.startFirst.productions := by
  have hmem : ∀ {name}, name ∈ g.nonterminals →
      name ∈ Table.keys (Productions.addNames ∅ (g.start :: g.nonterminals)) := fun hname ↦
    Productions.mem_keys_addNames_empty.mpr (List.mem_cons_of_mem _ hname)
  have hkeys : Table.keySet
      ((Productions.addNames ∅ (g.start :: g.nonterminals)).addRules g.rules) =
        g.startFirst.productions.keySet := by
    rw [Productions.keySet_addRules, Productions.keySet_addNames, keySet_startFirst]
    · rfl
    · exact fun rule hrule ↦ hmem (Productions.mem_keys_of_mem_bodies (mem_rules_iff.mp hrule))
  refine Table.ext_get? hkeys fun name ↦ ?_
  by_cases hname : name ∈ g.nonterminals
  · obtain ⟨bodies, hbodies⟩ := Table.mem_keys_iff.mp hname
    have hlisted : g.bodies name = bodies.toList := Productions.bodies_of_get? hbodies
    have hnone := Productions.get?_addNames_empty (List.mem_cons_of_mem g.start hname)
    rw [Productions.get?_addRules hnone, filter_rules, get?_startFirst hg, hbodies, hlisted]
    exact congrArg some (OrderedSet.ext (OrderedSet.toList_ofList_of_nodup bodies.nodup))
  · have hnone : g.startFirst.productions.get? name = none :=
      (get?_startFirst hg name).trans (Table.get?_eq_none_iff.mpr hname)
    rw [hnone, Table.get?_eq_none_iff]
    intro hlisted
    exact Table.get?_eq_none_iff.mp hnone ((congrArg (name ∈ ·.toList) hkeys).mp hlisted)

/-- A grammar is read back from its rule text, with the start symbol first. -/
theorem WellNamed.parse_render (hg : g.WellFormed) (h : g.WellNamed) :
    parse g.start g.terminals.toList g.render = .ok g.startFirst := by
  have hp : ∀ name, name ∈ Table.keys (Productions.addNames ∅ (g.start :: g.nonterminals)) ↔
      name ∈ g.nonterminals := by
    intro name
    rw [Productions.mem_keys_addNames_empty, List.mem_cons]
    exact or_iff_right_of_imp fun hname ↦ hname ▸ hg.start_mem
  have hvalid : ∀ name ∈ g.start :: g.nonterminals, name ∈ g.nonterminals :=
    List.forall_mem_cons.mpr ⟨hg.start_mem, fun name hname ↦ hname⟩
  rw [h.parse_eq_toGrammar hg, GrammarDraft.toGrammar_eq_ok_iff]
  refine ⟨g.terminals, g.printedLines, g.productions.entries.map fun e ↦
    e.2.toList.map fun body ↦ (e.1, body), ?_, ?_, ?_, ?_, ?_, ?_⟩
  · exact GrammarDraft.readTerminals_eq_ok_iff.mpr ⟨rfl, h.terminal⟩
  · rw [printedDraft, List.forall₂_map_left_iff, List.forall₂_same]
    intro r hr
    obtain ⟨e, he, rfl⟩ := List.mem_map.mp hr
    exact read_lineText (h.valid e.1 (List.mem_map_of_mem he)) e.2.toList
  · rw [declaredNames_printedDraft]
    intro name hname
    refine ⟨h.valid name (hvalid name hname), fun c hc hnamed ↦ ?_⟩
    exact h.apart c hc (hnamed ▸ hvalid name hname)
  · rw [declaredNames_printedDraft, printedLines, List.forall₂_map_left_iff,
      List.forall₂_map_right_iff, List.forall₂_same]
    intro e he
    exact ⟨_, h.readBodies_bodiesText hp (hg.declared_of_mem_entries he) _, rfl⟩
  · exact fun rule hrule ↦ absurd hrule List.not_mem_nil
  · rw [declaredNames_printedDraft, startFirst, Grammar.mk.injEq]
    refine ⟨rfl, rfl, ?_⟩
    have hrules : (g.productions.entries.map fun e ↦
        e.2.toList.map fun body ↦ (e.1, body)).flatten ++ g.printedDraft.productions =
          g.rules := by
      rw [printedDraft, List.append_nil]
      rfl
    rw [hrules]
    exact (productions_printedDraft hg).symm

/-- Rule text gives back exactly the grammars that are well named. -/
theorem parse_render_iff (hg : g.WellFormed) :
    (∃ k, parse g.start g.terminals.toList g.render = .ok k ∧ k ≈ g) ↔ g.WellNamed := by
  constructor
  · rintro ⟨k, hk, _, hterminals, hkeys, _⟩
    have h : k.WellNamed := GrammarDraft.wellNamed_of_toGrammar hk
    have hchars : ∀ c, c ∈ g.terminals → c ∈ k.terminals := fun c ↦ (hterminals c).mpr
    exact ⟨fun c hc ↦ h.terminal c (hchars c hc),
      fun name hname ↦ h.valid name ((hkeys name).mpr hname),
      fun c hc hname ↦ h.apart c (hchars c hc) ((hkeys _).mpr hname)⟩
  · exact fun h ↦ ⟨g.startFirst, h.parse_render hg, startFirst_equiv hg⟩

/-- The grammar of a draft is read back from its rule text. -/
theorem parse_render_of_toGrammar {d : GrammarDraft} (h : d.toGrammar = .ok g) :
    parse g.start g.terminals.toList g.render = .ok g := by
  have hg : g.WellFormed := GrammarDraft.wellFormed_of_toGrammar h
  have hnamed : g.WellNamed := GrammarDraft.wellNamed_of_toGrammar h
  have hfirst : g.startFirst = g :=
    startFirst_eq_self hg (GrammarDraft.head?_nonterminals_of_toGrammar h)
  rw [hnamed.parse_render hg, hfirst]

/-- A draft with terminals that separate elsewhere, a nonterminal without bodies, the empty body and
names of several lengths, in rule text and as tokens. -/
def quotedDraft : GrammarDraft where
  start := "S"
  terminals := [':', '(', 'a']
  nonterminals := ["None"]
  rules := ["S: ( <List'> : | ε", "<List'>:a", "E:"]
  productions := [("E", [.terminal ':', .nonterminal "S", .nonterminal "None"])]

/-- The grammar of this draft. -/
def quoted : Grammar where
  start := "S"
  terminals := .ofSet (.ofList [':', '(', 'a'])
  productions := .ofList [
    ("S", .ofList [[.terminal '(', .nonterminal "List'", .terminal ':'], []]),
    ("None", ∅),
    ("List'", .ofList [[.terminal 'a']]),
    ("E", .ofList [[.terminal ':', .nonterminal "S", .nonterminal "None"]])]

/-- It is read back. -/
theorem parse_render_quoted : quotedDraft.toGrammar = .ok quoted ∧
    parse "S" [':', '(', 'a'] quoted.render = .ok quoted := by
  have h : quotedDraft.toGrammar = .ok quoted := by decide +kernel
  exact ⟨h, parse_render_of_toGrammar h⟩

end Grammar

end LanguageTheory
