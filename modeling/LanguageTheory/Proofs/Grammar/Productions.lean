import LanguageTheory.Grammar.Symbols
import LanguageTheory.Proofs.Collections.Table

/-!
# Productions and the tokens they use

The bodies of a nonterminal after each operation on a table of productions, and well-formedness of a
grammar in terms of the tokens that its bodies use: productions are closed when every nonterminal of
a body has an entry of its own.
-/

namespace LanguageTheory

namespace Grammar

namespace Productions

/-! ### Bodies -/

/-- The bodies of a nonterminal are those of its entry. -/
theorem mem_bodies_iff {p : Productions} {name : String} {body : Body} :
    body ∈ p.bodies name ↔ ∃ bodies, p.get? name = some bodies ∧ body ∈ bodies := by
  unfold bodies Table.getD
  cases h : p.get? name with
  | none => simp
  | some bodies => simp

/-- The bodies of an entry. -/
theorem bodies_of_get? {p : Productions} {name : String} {bodies : OrderedSet Body}
    (h : p.get? name = some bodies) : p.bodies name = bodies.toList := by
  rw [Productions.bodies, Table.getD, h, Option.getD_some]

/-- A nonterminal without an entry has no bodies. -/
theorem bodies_of_notMem {p : Productions} {name : String} (h : name ∉ p.keys) :
    p.bodies name = [] := by
  rw [bodies, Table.getD, Table.get?_eq_none_iff.mpr h]
  rfl

/-- A nonterminal with bodies has an entry. -/
theorem mem_keys_of_mem_bodies {p : Productions} {name : String} {body : Body}
    (h : body ∈ p.bodies name) : name ∈ p.keys := by
  obtain ⟨bodies, hb, _⟩ := mem_bodies_iff.mp h
  exact Table.mem_keys_iff.mpr ⟨bodies, hb⟩

/-- Equivalent productions have the same bodies. -/
theorem mem_bodies_of_equiv {p q : Productions} (h : p ≈ q) {name : String} {body : Body} :
    body ∈ p.bodies name ↔ body ∈ q.bodies name := by
  rw [mem_bodies_iff, mem_bodies_iff]
  constructor
  · rintro ⟨bodies, hp, hb⟩
    obtain ⟨bodies', hq⟩ := Table.mem_keys_iff.mp ((h.1 name).mp (Table.mem_keys_iff.mpr ⟨_, hp⟩))
    exact ⟨bodies', hq, (h.2 name bodies hp bodies' hq body).mp hb⟩
  · rintro ⟨bodies', hq, hb⟩
    obtain ⟨bodies, hp⟩ := Table.mem_keys_iff.mp ((h.1 name).mpr (Table.mem_keys_iff.mpr ⟨_, hq⟩))
    exact ⟨bodies, hp, (h.2 name bodies hp bodies' hq body).mpr hb⟩

/-- The bodies after an entry was set. -/
theorem bodies_insert (p : Productions) (head : String) (new : OrderedSet Body) (name : String) :
    Productions.bodies (p.insert head new) name =
      if name = head then new.toList else p.bodies name := by
  unfold bodies Table.getD
  rw [Table.get?_insert]
  split <;> rfl

/-- The bodies after a body was added. -/
theorem mem_bodies_add {p : Productions} {head name : String} {body new : Body} :
    body ∈ (p.add head new).bodies name ↔
      body ∈ p.bodies name ∨ name = head ∧ body = new := by
  rw [mem_bodies_iff, mem_bodies_iff]
  exact Table.lists_upsert_insert

/-- Adding a body changes the bodies of its head only. -/
theorem bodies_add_of_ne {p : Productions} {head name : String} {new : Body} (h : name ≠ head) :
    Productions.bodies (p.add head new) name = p.bodies name := by
  unfold bodies Table.getD
  rw [add, Table.get?_upsert, if_neg h]

/-- Adding a body adds its head to the nonterminals. -/
theorem mem_keys_add {p : Productions} {head name : String} {new : Body} :
    name ∈ Table.keys (p.add head new) ↔ name ∈ p.keys ∨ name = head := Table.mem_keys_upsert

/-- The bodies after the bodies of one entry were changed. -/
theorem bodies_modify (p : Productions) (head : String) (f : OrderedSet Body → OrderedSet Body)
    (h : head ∈ p.keys) (name : String) :
    Productions.bodies (p.modify head f) name =
      if name = head then (f (p.getD head ∅)).toList else p.bodies name := by
  unfold bodies Table.getD
  rw [Table.get?_modify]
  by_cases hn : name = head
  · subst hn
    obtain ⟨bodies, hb⟩ := Table.mem_keys_iff.mp h
    simp [hb]
  · simp [hn]

/-- Productions without one body of a nonterminal. -/
def without (p : Productions) (head : String) (body : Body) : Productions :=
  p.modify head fun bodies ↦ bodies.filter (· ≠ body)

/-- Removing a body keeps the nonterminals. -/
theorem keys_without (p : Productions) (head : String) (body : Body) :
    Table.keys (p.without head body) = p.keys := by
  rw [without, Table.modify, Table.keys_mapValues]

/-- Removing a body changes the bodies of its head only. -/
theorem bodies_without_of_ne {p : Productions} {head name : String} {body : Body}
    (h : head ∈ p.keys) (hn : name ≠ head) :
    (p.without head body).bodies name = p.bodies name := by
  rw [without, bodies_modify _ _ _ h, if_neg hn]

/-- All other bodies of the head are left. -/
theorem mem_bodies_without_self {p : Productions} {head : String} {body old : Body}
    (h : head ∈ p.keys) :
    old ∈ (p.without head body).bodies head ↔ old ∈ p.bodies head ∧ old ≠ body := by
  rw [without, bodies_modify _ _ _ h, if_pos rfl, OrderedSet.mem_toList, OrderedSet.mem_filter,
    decide_eq_true_eq]
  rfl

/-- The bodies after all entries were changed. -/
theorem mem_bodies_mapValues {p : Productions} {f : String → OrderedSet Body → OrderedSet Body}
    {name : String} {body : Body} :
    body ∈ Productions.bodies (p.mapValues f) name ↔
      ∃ bodies, p.get? name = some bodies ∧ body ∈ f name bodies := by
  rw [mem_bodies_iff, Table.get?_mapValues]
  constructor
  · rintro ⟨changed, hc, hbody⟩
    obtain ⟨bodies, hb, he⟩ := Option.map_eq_some_iff.mp hc
    subst he
    exact ⟨bodies, hb, hbody⟩
  · rintro ⟨bodies, hb, hbody⟩
    exact ⟨f name bodies, by rw [hb, Option.map_some], hbody⟩

/-- One more nonterminal in front of the others is one more nonterminal. -/
theorem mem_keys_insertMany_entries {p : Productions} {start name : String}
    {new : OrderedSet Body} :
    name ∈ Table.keys ((Table.ofList [(start, new)]).insertMany p.entries) ↔
      name ∈ p.keys ∨ name = start := by
  rw [Table.mem_keys_insertMany, Table.mem_keys_ofList, or_comm, List.map_singleton,
    List.mem_singleton]
  exact Iff.rfl

/-- One more nonterminal in front of the others changes no bodies but its own. -/
theorem mem_bodies_insertMany_entries {p : Productions} {start name : String}
    {new : OrderedSet Body} {body : Body} (hstart : start ∉ p.keys) :
    body ∈ Productions.bodies ((Table.ofList [(start, new)]).insertMany p.entries) name ↔
      body ∈ p.bodies name ∨ name = start ∧ body ∈ new := by
  have hsingle : Table.get? (Table.ofList [(start, new)]) name =
      if name = start then some new else none := Table.get?_insert ∅ start new name
  rw [mem_bodies_iff, mem_bodies_iff, Table.get?_insertMany_entries, hsingle]
  by_cases hname : name = start
  · subst hname
    simp [Table.get?_eq_none_iff.mpr hstart]
  · simp [hname]

/-! ### Tokens of bodies -/

/-- Whether some body has a token. -/
def Uses (p : Productions) (t : Token) : Prop := ∃ name, ∃ body ∈ p.bodies name, t ∈ body

/-- Every nonterminal of a body has an entry. -/
def Closed (p : Productions) : Prop := ∀ name, p.Uses (.nonterminal name) → name ∈ p.keys

/-- A token of a body is used. -/
theorem Uses.of_mem {p : Productions} {name : String} {body : Body} {t : Token}
    (hb : body ∈ p.bodies name) (ht : t ∈ body) : p.Uses t := ⟨name, body, hb, ht⟩

end Productions

/-! ### Grammars -/

/-- The rules are the bodies with their heads. -/
theorem mem_rules_iff {g : Grammar} {name : String} {body : Body} :
    (name, body) ∈ g.rules ↔ body ∈ g.bodies name := by
  constructor
  · intro h
    obtain ⟨⟨head, bodies⟩, he, hb⟩ := List.mem_flatMap.mp h
    obtain ⟨b, hb, he'⟩ := List.mem_map.mp hb
    cases he'
    exact Productions.mem_bodies_iff.mpr ⟨bodies, Table.get?_eq_some_iff.mpr he, hb⟩
  · exact mem_rules_of_mem_bodies

/-- The start symbol is used exactly when some body has it. -/
theorem usesStart_iff {g : Grammar} :
    g.usesStart = true ↔ g.productions.Uses (.nonterminal g.start) := by
  unfold usesStart
  rw [List.any_eq_true]
  constructor
  · rintro ⟨⟨name, body⟩, hr, ht⟩
    exact .of_mem (mem_rules_iff.mp hr) (List.contains_iff_mem.mp ht)
  · rintro ⟨name, body, hb, ht⟩
    exact ⟨(name, body), mem_rules_iff.mpr hb, List.contains_iff_mem.mpr ht⟩

/-- A grammar is well formed when its start symbol has an entry, its productions are closed, and
their terminals are declared. -/
theorem wellFormed_iff {g : Grammar} :
    g.WellFormed ↔ g.start ∈ g.productions.keys ∧ g.productions.Closed ∧
      ∀ c, g.productions.Uses (.terminal c) → c ∈ g.terminals := by
  constructor
  · rintro ⟨hstart, hdeclared⟩
    have huses : ∀ t, g.productions.Uses t → Declared g.terminals g.productions t := by
      rintro t ⟨name, body, hb, ht⟩
      obtain ⟨bodies, hn, hb⟩ := Productions.mem_bodies_iff.mp hb
      exact hdeclared bodies (Table.mem_values_iff.mpr ⟨name, hn⟩) body hb t ht
    exact ⟨hstart, fun name hu ↦ huses _ hu, fun c hu ↦ huses _ hu⟩
  · rintro ⟨hstart, hclosed, hterminals⟩
    refine ⟨hstart, fun bodies hv body hb t ht ↦ ?_⟩
    obtain ⟨name, hn⟩ := Table.mem_values_iff.mp hv
    have hu : g.productions.Uses t :=
      .of_mem (Productions.mem_bodies_iff.mpr ⟨bodies, hn, hb⟩) ht
    cases t with
    | terminal c => exact hterminals c hu
    | nonterminal m => exact hclosed m hu

instance (terminals : Alphabet) (p : Productions) (t : Token) :
    Decidable (Declared terminals p t) :=
  match t with
  | .terminal c => inferInstanceAs (Decidable (c ∈ terminals))
  | .nonterminal name => inferInstanceAs (Decidable (name ∈ p.keys))

instance (g : Grammar) : Decidable g.WellFormed :=
  decidable_of_iff (g.start ∈ g.productions.keys ∧ ∀ bodies ∈ g.productions.values,
    ∀ body ∈ bodies.toList, ∀ t ∈ body, Declared g.terminals g.productions t)
    ⟨fun h ↦ ⟨h.1, h.2⟩, fun h ↦ ⟨h.1, h.2⟩⟩

/-- A grammar with left recursion behind a nonterminal that derives the empty word:
`S: NSb | a` and `N: ε | S`. -/
def hiddenRecursion : Grammar where
  start := "S"
  terminals := .ofSet (.ofList ['a', 'b'])
  productions := .ofList [
    ("S", .ofList [[.nonterminal "N", .nonterminal "S", .terminal 'b'], [.terminal 'a']]),
    ("N", .ofList [[], [.nonterminal "S"]])]

example : hiddenRecursion.WellFormed := by decide

/-- A grammar with the empty body, a cycle of units, left recursion, a nonterminal without bodies
and one without words to which nothing leads: `S: SS | A | ε` and `A: S | a | Bb` and `U: bU`. -/
def tangled : Grammar where
  start := "S"
  terminals := .ofSet (.ofList ['a', 'b'])
  productions := .ofList [
    ("S", .ofList [[.nonterminal "S", .nonterminal "S"], [.nonterminal "A"], []]),
    ("A", .ofList [[.nonterminal "S"], [.terminal 'a'], [.nonterminal "B", .terminal 'b']]),
    ("B", ∅),
    ("U", .ofList [[.terminal 'b', .nonterminal "U"]])]

end Grammar

end LanguageTheory
