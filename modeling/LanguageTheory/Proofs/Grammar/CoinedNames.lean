import LanguageTheory.Proofs.Grammar.Chomsky
import LanguageTheory.Proofs.Grammar.Greibach
import LanguageTheory.Proofs.Grammar.RuleText

/-!
# Names that transformations coin

New nonterminals are named after old ones, with primes, or after sequences of tokens, in square
brackets. Such a name has two characters at least, so it is no terminal, and its characters are
those of old names and terminals. A terminal need not be a character of names: the colon is none.
-/

namespace LanguageTheory.Grammar

/-- A name that is a nonterminal, or that has two characters at least, which are characters of names
or `extra`. -/
def Coined (g : Grammar) (extra : Char → Prop) (name : String) : Prop :=
  name ∈ g.nonterminals ∨
    2 ≤ name.toList.length ∧ ∀ c ∈ name.toList, isNameChar c = true ∨ extra c

/-- A token that can be part of a coined name. -/
def CoinedToken (g : Grammar) (extra : Char → Prop) : Token → Prop
  | .terminal c => isNameChar c = true ∨ extra c
  | .nonterminal name => Coined g extra name

/-- Productions all of whose nonterminals are coined. -/
def Productions.Coined (g : Grammar) (extra : Char → Prop) (p : Productions) : Prop :=
  ∀ name ∈ p.keys, Grammar.Coined g extra name

variable {g : Grammar} {extra : Char → Prop} {name : String} {c : Char}

/-! ### Fresh names -/

/-- A fresh name for a text of two characters at least is coined if the characters of the text
are. -/
theorem coined_freshName {base : String} (used : List String) (hlength : 2 ≤ base.toList.length)
    (hchars : ∀ c ∈ base.toList, isNameChar c = true ∨ extra c) :
    Coined g extra (freshName base used) := by
  obtain ⟨n, hn⟩ := exists_toList_freshName base used
  refine .inr ⟨?_, fun c hc ↦ ?_⟩
  · rw [hn, List.length_append]
    omega
  · rw [hn, List.mem_append] at hc
    rcases hc with hc | hc
    · exact hchars c hc
    · rw [List.eq_of_mem_replicate hc]
      exact .inl (by decide)

section WellNamed

variable (hg : g.WellNamed)
include hg

/-- The characters of a coined name. -/
theorem Coined.mem_toList (h : Coined g extra name) (hc : c ∈ name.toList) :
    isNameChar c = true ∨ extra c := by
  rcases h with hold | ⟨_, hchars⟩
  · exact .inl ((isValidName_iff.mp (hg.valid name hold)).2 c hc)
  · exact hchars c hc

/-- A coined name has characters. -/
theorem Coined.toList_ne_nil (h : Coined g extra name) : name.toList ≠ [] := by
  rcases h with hold | ⟨hlength, _⟩
  · exact (isValidName_iff.mp (hg.valid name hold)).1
  · exact List.ne_nil_of_length_pos (by omega)

/-- A coined name with a prime, made fresh, is coined. -/
theorem Coined.primed (h : Coined g extra name) (used : List String) :
    Coined g extra (freshName (name ++ "'") used) := by
  have hlength : 1 ≤ name.toList.length := List.length_pos_iff.mpr (h.toList_ne_nil hg)
  refine coined_freshName used ?_ fun c hc ↦ ?_
  · simpa using hlength
  · rw [String.toList_append, List.mem_append] at hc
    rcases hc with hc | hc
    · exact h.mem_toList hg hc
    · rw [List.mem_singleton.mp hc]
      exact .inl (by decide)

/-- A sequence of tokens in square brackets, made fresh, is coined. -/
theorem coined_bracketed {ts : Body} (h : ∀ t ∈ ts, CoinedToken g extra t) (used : List String) :
    Coined g extra (freshName ("[" ++ String.join (ts.map Token.bareText) ++ "]") used) := by
  have htext : ("[" ++ String.join (ts.map Token.bareText) ++ "]").toList =
      '[' :: (ts.flatMap fun t ↦ t.bareText.toList) ++ [']'] := by
    simp [String.toList_join, List.flatMap_map]
  refine coined_freshName used ?_ fun c hc ↦ ?_
  · rw [htext]
    simp
  · rw [htext, List.mem_append, List.mem_cons, List.mem_singleton] at hc
    rcases hc with (rfl | hc) | rfl
    · exact .inl (by decide)
    · obtain ⟨t, ht, hc⟩ := List.mem_flatMap.mp hc
      cases t with
      | terminal d =>
        have hcd : c = d := by simpa [Token.bareText] using hc
        exact hcd ▸ h _ ht
      | nonterminal name => exact Coined.mem_toList hg (h _ ht) hc
    · exact .inl (by decide)

/-- A terminal in square brackets, made fresh, is coined. -/
theorem coined_proxy (h : isNameChar c = true ∨ extra c) (used : List String) :
    Coined g extra (freshName ("[" ++ c.toString ++ "]") used) := by
  have htokens : ∀ t ∈ [Token.terminal c], CoinedToken g extra t := by
    intro t ht
    rw [List.mem_singleton.mp ht]
    exact h
  simpa [Token.bareText] using coined_bracketed hg htokens used

end WellNamed

/-! ### New nonterminals -/

namespace Productions

variable {p : Productions}

/-- A coined name is added. -/
theorem Coined.upsert (h : p.Coined g extra) (hname : Grammar.Coined g extra name)
    (f : Option (OrderedSet Body) → OrderedSet Body) : Coined g extra (p.upsert name f) := by
  intro m hm
  rcases Table.mem_keys_upsert.mp hm with hm | rfl
  · exact h m hm
  · exact hname

variable (hg : g.WellNamed)
include hg

/-- Repetition at the end has a coined name. -/
theorem Coined.recurseAtEnd (h : p.Coined g extra) (head : String) :
    (p.recurseAtEnd head).Coined g extra := by
  unfold Productions.recurseAtEnd
  split
  · exact h
  · next bodies hbodies =>
    have hhead := h head (Table.mem_keys_iff.mpr ⟨bodies, hbodies⟩)
    dsimp only
    split
    · exact h
    · exact (h.upsert hhead _).upsert (hhead.primed hg _) _

/-- The sweep that removes left recursion coins its names. -/
theorem Coined.removeRecursion {earlier heads : List String} (h : p.Coined g extra) :
    (p.removeRecursion earlier heads).Coined g extra := by
  induction heads generalizing p earlier with
  | nil => exact h
  | cons head heads ih =>
    have hinlined : (earlier.foldl (fun p name ↦ p.inlineFront head name) p).Coined g extra := by
      clear ih
      induction earlier generalizing p with
      | nil => exact h
      | cons first earlier ih =>
        refine ih fun name hname ↦ h name ?_
        rwa [keys_inlineFront] at hname
    exact ih (hinlined.recurseAtEnd hg head)

/-- The nonterminals for inner terminals have coined names. -/
theorem Coined.proxyInner (h : p.Coined g extra)
    (hterminals : ∀ c, p.Uses (.terminal c) → isNameChar c = true ∨ extra c) :
    p.proxyInner.Coined g extra := by
  intro name hname
  rcases mem_keys_proxyInner.mp hname with hname | ⟨c, hc, rfl⟩
  · exact h name hname
  · obtain ⟨head, body, hb, hmem⟩ := mem_innerTerminals_iff.mp hc
    exact coined_proxy hg (hterminals c (.of_mem hb (List.mem_of_mem_tail hmem))) _

end Productions

namespace Binarization

variable {b : Binarization} (hg : g.WellNamed)
include hg

/-- The nonterminal for a token has a coined name. -/
theorem coined_proxy (h : b.productions.Coined g extra) {t : Token} (ht : CoinedToken g extra t) :
    (b.proxy t).2.productions.Coined g extra := by
  cases t with
  | nonterminal name => exact h
  | terminal c =>
    unfold proxy
    dsimp only
    split
    · exact h
    · exact h.upsert (Grammar.coined_proxy hg ht _) _

/-- The nonterminals for the end of a body have coined names. -/
theorem coined_suffix (h : b.productions.Coined g extra) {ts : Body}
    (hts : ∀ t ∈ ts, CoinedToken g extra t) : (b.suffix ts).2.productions.Coined g extra := by
  induction ts generalizing b with
  | nil => exact h
  | cons t rest ih =>
    rw [List.forall_mem_cons] at hts
    cases rest with
    | nil => exact coined_proxy hg h hts.1
    | cons u rest =>
      unfold suffix
      split
      · exact h
      · have hname := coined_bracketed hg (List.forall_mem_cons.mpr hts) b.productions.keys
        have hreserved := h.upsert hname fun _ ↦ ∅
        exact (coined_proxy hg (ih hreserved hts.2) hts.1).upsert hname _

/-- The nonterminals for cut bodies have coined names. -/
theorem coined_cut (h : b.productions.Coined g extra) {head : String}
    (hhead : Coined g extra head) {body : Body} (hbody : ∀ t ∈ body, CoinedToken g extra t) :
    (b.cut head body).productions.Coined g extra := by
  match body, hbody with
  | [], _ => exact h
  | [_], _ => exact h
  | t :: u :: rest, hbody =>
    rw [List.forall_mem_cons] at hbody
    rw [cut_cons_cons]
    have hremoved : (b.productions.without head (t :: u :: rest)).Coined g extra := by
      intro name hname
      rw [Productions.keys_without] at hname
      exact h name hname
    have htail := coined_suffix hg (b := { b with productions := _ }) hremoved hbody.2
    exact (coined_proxy hg htail hbody.1).upsert hhead _

/-- The nonterminals for all cut bodies have coined names. -/
theorem coined_foldl_cut (h : b.productions.Coined g extra) {rules : List (String × Body)}
    (hrules : ∀ rule ∈ rules, Coined g extra rule.1 ∧ ∀ t ∈ rule.2, CoinedToken g extra t) :
    (rules.foldl (fun b rule ↦ b.cut rule.1 rule.2) b).productions.Coined g extra := by
  induction rules generalizing b with
  | nil => exact h
  | cons rule rules ih =>
    rw [List.forall_mem_cons] at hrules
    exact ih (coined_cut hg h hrules.1.1 hrules.1.2) hrules.2

end Binarization

end LanguageTheory.Grammar
