import LanguageTheory.Proofs.Grammar.Draft

/-!
# The meaning of drafts

What the parts of a draft say about the grammar that is made of it: its terminals, its nonterminals
and the bodies of each nonterminal, whatever the order in which the parts were given. A grammar is
made of a draft exactly when all of its parts are declared.
-/

namespace LanguageTheory.GrammarDraft

open Grammar

variable {d : GrammarDraft} {g : Grammar} {name : String} {body : Body} {rules : List RuleLine}
  {terminals : Alphabet} {t : Token}

/-- A name that is declared anywhere in a draft: as the start symbol, explicitly, or as the head of
a rule or of a production. -/
def Declares (d : GrammarDraft) (name : String) : Prop :=
  name = d.start ∨ name ∈ d.nonterminals ∨
    (∃ text ∈ d.rules, ∃ bodies, IsRule text name bodies) ∨ ∃ body, (name, body) ∈ d.productions

/-- A token that is declared anywhere in a draft. -/
def DeclaresToken (d : GrammarDraft) : Token → Prop
  | .terminal c => c ∈ d.terminals
  | .nonterminal name => d.Declares name

/-- An alternative that is not blank, and the body of declared tokens that it denotes. -/
def Reads (d : GrammarDraft) (part : List Char) (body : Body) : Prop :=
  (∃ c ∈ part, isBlank c = false) ∧ Denotes d.Declares part body ∧ ∀ t ∈ body, d.DeclaresToken t

/-- What is asked of a draft: distinct terminals that rule text can have, valid names that are no
terminals, lines that are rules, alternatives that denote bodies, and productions of declared
tokens. -/
structure IsDeclared (d : GrammarDraft) : Prop where
  nodup_terminals : d.terminals.Nodup
  terminal : ∀ c ∈ d.terminals,
    c ≠ epsilonChar ∧ isBlank c = false ∧ c ≠ '<' ∧ c ≠ '>' ∧ c ≠ '|'
  name : ∀ name, d.Declares name → isValidName name = true ∧ ∀ c ∈ d.terminals, name ≠ c.toString
  rule : ∀ text ∈ d.rules, ∃ head bodies, IsRule text head bodies
  alternative : ∀ text ∈ d.rules, ∀ head part, HasAlternative text head part →
    ∃ body, d.Reads part body
  production : ∀ rule ∈ d.productions, ∀ t ∈ rule.2, d.DeclaresToken t

/-- What a draft says about a grammar. -/
structure Describes (d : GrammarDraft) (g : Grammar) : Prop where
  start_eq : g.start = d.start
  terminals_eq : g.terminals.toList = d.terminals
  mem_nonterminals_iff : ∀ name, name ∈ g.nonterminals ↔ d.Declares name
  declared : ∀ name, ∀ body ∈ g.bodies name, ∀ t ∈ body, Declared g.terminals g.productions t
  mem_bodies_iff : ∀ name body, body ∈ g.bodies name ↔
    (∃ text ∈ d.rules, ∃ part, HasAlternative text name part ∧ Denotes d.Declares part body) ∨
      (name, body) ∈ d.productions

/-! ### Names and tokens -/

section Lines

variable (hrules : List.Forall₂ (fun text r ↦ RuleLine.read text = .ok r) d.rules rules)

include hrules

/-- Every line of a draft has been read. -/
theorem exists_read_of_mem_rules {text : String} (h : text ∈ d.rules) :
    ∃ r ∈ rules, IsRule text r.head r.bodies := by
  obtain ⟨r, hr, hread⟩ := exists_mem_of_forall₂ hrules.flip h
  exact ⟨r, hr, (read_eq_ok_iff.mp hread).2.1⟩

/-- What has been read is a line of the draft. -/
theorem exists_line_of_mem {r : RuleLine} (h : r ∈ rules) :
    ∃ text ∈ d.rules, IsRule text r.head r.bodies := by
  obtain ⟨text, htext, hread⟩ := exists_mem_of_forall₂ hrules h
  exact ⟨text, htext, (read_eq_ok_iff.mp hread).2.1⟩

/-- The names of a draft are those of its parts. -/
theorem mem_declaredNames_iff : name ∈ d.declaredNames rules ↔ d.Declares name := by
  have hheads : name ∈ rules.map RuleLine.head ↔
      ∃ text ∈ d.rules, ∃ bodies, IsRule text name bodies := by
    constructor
    · intro h
      obtain ⟨r, hr, rfl⟩ := List.mem_map.mp h
      obtain ⟨text, htext, hrule⟩ := exists_line_of_mem hrules hr
      exact ⟨text, htext, _, hrule⟩
    · rintro ⟨text, htext, bodies, hrule⟩
      obtain ⟨r, hr, hread⟩ := exists_read_of_mem_rules hrules htext
      exact List.mem_map.mpr ⟨r, hr, (hread.unique hrule).1⟩
  have hproductions : name ∈ d.productions.map Prod.fst ↔ ∃ body, (name, body) ∈ d.productions := by
    simp
  rw [declaredNames, Declares, ← hheads, ← hproductions]
  simp only [List.mem_append, List.mem_cons, or_assoc]

/-- The names that are known when the bodies are read are those that are declared anywhere. -/
theorem mem_keys_iff_declares :
    name ∈ Table.keys (Productions.addNames ∅ (d.declaredNames rules)) ↔ d.Declares name :=
  Productions.mem_keys_addNames_empty.trans (mem_declaredNames_iff hrules)

variable (hterminals : terminals.toList = d.terminals)

include hterminals

/-- The tokens that are known when the bodies are read are those that are declared anywhere. -/
theorem declared_iff_declaresToken :
    Declared terminals (Productions.addNames ∅ (d.declaredNames rules)) t ↔ d.DeclaresToken t := by
  cases t with
  | terminal c => exact iff_of_eq (congrArg (c ∈ ·) hterminals)
  | nonterminal name => exact mem_keys_iff_declares hrules

/-! ### Lines -/

/-- The bodies of a line are read from its alternatives. -/
theorem readBodies_eq_ok_iff_reads {r : RuleLine} {bodies : List Body} :
    r.readBodies terminals (Productions.addNames ∅ (d.declaredNames rules)) = .ok bodies ↔
      ∃ parts, Alternatives r.bodies parts ∧ List.Forall₂ d.Reads parts bodies := by
  simp only [readBodies_eq_ok_iff, mem_keys_iff_declares hrules,
    declared_iff_declaresToken hrules hterminals]
  rfl

variable {read : List (List (String × Body))} (hread : List.Forall₂ (fun r listed ↦ ∃ bodies,
  r.readBodies terminals (Productions.addNames ∅ (d.declaredNames rules)) = .ok bodies ∧
    listed = bodies.map fun body ↦ (r.head, body)) rules read)

include hread

/-- Every alternative of a line has been read as a body of its head. -/
theorem exists_reads_of_hasAlternative {text head : String} {part : List Char}
    (htext : text ∈ d.rules) (h : HasAlternative text head part) :
    ∃ body, d.Reads part body ∧ (head, body) ∈ read.flatten := by
  obtain ⟨bodies, parts, hrule, hparts, hpart⟩ := h
  obtain ⟨r, hr, hrule'⟩ := exists_read_of_mem_rules hrules htext
  obtain ⟨rfl, rfl⟩ := hrule'.unique hrule
  obtain ⟨_, hlisted, listed, hbodies, rfl⟩ := exists_mem_of_forall₂ hread.flip hr
  obtain ⟨parts', hparts', hreads⟩ := (readBodies_eq_ok_iff_reads hrules hterminals).mp hbodies
  obtain rfl := hparts'.unique hparts
  obtain ⟨body, hb, hbody⟩ := exists_mem_of_forall₂ hreads.flip hpart
  exact ⟨body, hbody, List.mem_flatten.mpr ⟨_, hlisted, List.mem_map.mpr ⟨body, hb, rfl⟩⟩⟩

/-- The bodies that were read are those that the alternatives of the lines denote. -/
theorem mem_flatten_iff : (name, body) ∈ read.flatten ↔
    ∃ text ∈ d.rules, ∃ part, HasAlternative text name part ∧ Denotes d.Declares part body := by
  constructor
  · intro h
    obtain ⟨r, hr, rfl, bodies, hbodies, hb⟩ := exists_line_of_mem_flatten hread h
    obtain ⟨text, htext, hrule⟩ := exists_line_of_mem hrules hr
    obtain ⟨parts, hparts, hreads⟩ := (readBodies_eq_ok_iff_reads hrules hterminals).mp hbodies
    obtain ⟨part, hpart, -, hbody, -⟩ := exists_mem_of_forall₂ hreads hb
    exact ⟨text, htext, part, ⟨r.bodies, parts, hrule, hparts, hpart⟩, hbody⟩
  · rintro ⟨text, htext, part, hpart, hbody⟩
    obtain ⟨body', ⟨-, hbody', -⟩, hb⟩ :=
      exists_reads_of_hasAlternative hrules hterminals hread htext hpart
    obtain rfl := hbody'.unique hbody
    exact hb

end Lines

/-! ### Accepted drafts -/

/-- Terminals are accepted if they are distinct and none of them has a meaning of its own. -/
theorem readTerminals_eq_ok_iff_toList : readTerminals d.terminals = .ok terminals ↔
    terminals.toList = d.terminals ∧ ∀ c ∈ d.terminals,
      c ≠ epsilonChar ∧ isBlank c = false ∧ c ≠ '<' ∧ c ≠ '>' ∧ c ≠ '|' := by
  rw [readTerminals_eq_ok_iff]
  refine and_congr_right fun hterminals ↦ ?_
  simp only [isReserved_eq_false_iff, ← hterminals, and_comm]
  rfl

/-- What is asked of a draft holds of one that is accepted. -/
theorem isDeclared_of_toGrammar (h : d.toGrammar = .ok g) : d.IsDeclared := by
  obtain ⟨terminals, rules, read, hchars, hrules, hnames, hread, hchecked, -⟩ :=
    toGrammar_eq_ok_iff.mp h
  obtain ⟨hterminals, hterminal⟩ := readTerminals_eq_ok_iff_toList.mp hchars
  exact {
    nodup_terminals := hterminals ▸ terminals.chars.nodup
    terminal := hterminal
    name := fun name hname ↦ by
      obtain ⟨hvalid, hapart⟩ := hnames name ((mem_declaredNames_iff hrules).mpr hname)
      refine ⟨hvalid, fun c hc ↦ hapart c ?_⟩
      rwa [← hterminals] at hc
    rule := fun text htext ↦ by
      obtain ⟨r, -, hrule⟩ := exists_read_of_mem_rules hrules htext
      exact ⟨r.head, r.bodies, hrule⟩
    alternative := fun text htext head part hpart ↦ by
      obtain ⟨body, hbody, -⟩ :=
        exists_reads_of_hasAlternative hrules hterminals hread htext hpart
      exact ⟨body, hbody⟩
    production := fun rule hrule t ht ↦
      (declared_iff_declaresToken hrules hterminals).mp (hchecked rule hrule t ht) }

/-- A draft of which all that is asked holds is accepted. -/
theorem IsDeclared.exists_toGrammar (h : d.IsDeclared) : ∃ g, d.toGrammar = .ok g := by
  let terminals : Alphabet := ⟨⟨d.terminals, h.nodup_terminals⟩⟩
  have hterminals : terminals.toList = d.terminals := rfl
  have hlines : ∀ text ∈ d.rules, ∃ r, RuleLine.read text = .ok r := by
    intro text htext
    obtain ⟨head, bodies, hrule⟩ := h.rule text htext
    have hdeclared : d.Declares head := .inr (.inr (.inl ⟨text, htext, bodies, hrule⟩))
    have hne : head.toList ≠ [] := (isValidName_iff.mp (h.name head hdeclared).1).1
    exact ⟨⟨text, head, bodies⟩, read_eq_ok_iff.mpr ⟨rfl, hrule, hne⟩⟩
  obtain ⟨rules, hrules⟩ := exists_forall₂_iff.mpr hlines
  have hbodies : ∀ r ∈ rules, ∃ listed bodies,
      r.readBodies terminals (Productions.addNames ∅ (d.declaredNames rules)) = .ok bodies ∧
        listed = bodies.map fun body ↦ (r.head, body) := by
    intro r hr
    obtain ⟨text, htext, hrule⟩ := exists_line_of_mem hrules hr
    obtain ⟨parts, hparts⟩ := exists_alternatives r.bodies
    obtain ⟨bodies, hreads⟩ := exists_forall₂_iff.mpr fun part hpart ↦
      h.alternative text htext r.head part ⟨r.bodies, parts, hrule, hparts, hpart⟩
    have hread : r.readBodies terminals (Productions.addNames ∅ (d.declaredNames rules)) =
        .ok bodies := (readBodies_eq_ok_iff_reads hrules hterminals).mpr ⟨parts, hparts, hreads⟩
    exact ⟨_, bodies, hread, rfl⟩
  obtain ⟨read, hread⟩ := exists_forall₂_iff.mpr hbodies
  refine ⟨_, toGrammar_eq_ok_iff.mpr ⟨terminals, rules, read, ?_, hrules, ?_, hread, ?_, rfl⟩⟩
  · exact readTerminals_eq_ok_iff_toList.mpr ⟨hterminals, h.terminal⟩
  · exact fun name hname ↦ h.name name ((mem_declaredNames_iff hrules).mp hname)
  · exact fun rule hrule t ht ↦
      (declared_iff_declaresToken hrules hterminals).mpr (h.production rule hrule t ht)

/-- A grammar is made of a draft exactly when what is asked of the draft holds. -/
theorem exists_toGrammar_iff : (∃ g, d.toGrammar = .ok g) ↔ d.IsDeclared :=
  ⟨fun ⟨_, h⟩ ↦ isDeclared_of_toGrammar h, IsDeclared.exists_toGrammar⟩

/-- A grammar that is made of a draft is what the draft describes: its terminals are the declared
ones, its nonterminals are the names that are declared anywhere, and the bodies of a nonterminal are
those that its rules denote and those of its productions. The terminals are distinct, and they and
the names are such that rule text can have them. -/
theorem describes_of_toGrammar (h : d.toGrammar = .ok g) : d.IsDeclared ∧ d.Describes g := by
  refine ⟨isDeclared_of_toGrammar h, ?_⟩
  obtain ⟨-, -, -, -, hdeclared⟩ := exists_names_of_toGrammar h
  obtain ⟨terminals, rules, read, hchars, hrules, -, hread, -, rfl⟩ := toGrammar_eq_ok_iff.mp h
  obtain ⟨hterminals, -⟩ := readTerminals_eq_ok_iff_toList.mp hchars
  have hkeys := keySet_addRules_declaredNames d hread
  exact {
    start_eq := rfl
    terminals_eq := hterminals
    mem_nonterminals_iff := fun name ↦ by
      rw [← mem_keys_iff_declares hrules]
      exact iff_of_eq (congrArg (name ∈ ·.toList) hkeys)
    declared := fun name body hb t ht ↦ hdeclared t ⟨name, body, hb, ht⟩
    mem_bodies_iff := fun name body ↦ by
      refine Productions.mem_bodies_addRules.trans ?_
      rw [List.mem_append, mem_flatten_iff hrules hterminals hread] }

/-- A draft with the rules of one nonterminal in two lines, bracketed and bare, that uses names
before they are declared: `B` only as the head of a production. -/
def scatteredDraft : GrammarDraft where
  start := "S"
  terminals := ['a', 'b']
  nonterminals := ["N"]
  rules := ["S:<Item>B|ε", " <Item> : a b | BN", "Item: ba"]
  productions := [("B", [.terminal 'b', .nonterminal "S"]), ("S", [.nonterminal "B"])]

/-- The grammar of this draft. -/
def scattered : Grammar where
  start := "S"
  terminals := .ofSet (.ofList ['a', 'b'])
  productions := .ofList [
    ("S", .ofList [[.nonterminal "Item", .nonterminal "B"], [], [.nonterminal "B"]]),
    ("N", ∅),
    ("Item", .ofList [[.terminal 'a', .terminal 'b'], [.nonterminal "B", .nonterminal "N"],
      [.terminal 'b', .terminal 'a']]),
    ("B", .ofList [[.terminal 'b', .nonterminal "S"]])]

/-- The draft is accepted, and its grammar is what it describes. -/
theorem describes_scattered : scatteredDraft.toGrammar = .ok scattered ∧
    scatteredDraft.IsDeclared ∧ scatteredDraft.Describes scattered := by
  have hread : scatteredDraft.toGrammar = .ok scattered := by decide +kernel
  exact ⟨hread, describes_of_toGrammar hread⟩

end LanguageTheory.GrammarDraft
