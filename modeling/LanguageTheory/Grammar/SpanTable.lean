import LanguageTheory.Grammar.Basic

/-!
# A table of spans

What is known about the nonterminals and the stretches of a word stands in one array of truth
values, with an entry for each two positions and each nonterminal. A pass reads every body from
every position and enters what it finds at once, so that the readings after it in the same pass use
it. Passes follow each other until one enters nothing. Every access to an array may fail, which
gives `none`.

Spec guidance: `SPEC_FULL.md` §12.1.
-/

namespace LanguageTheory

universe u v

/-- What holds of a state and is kept by each step holds after all steps that do not fail. -/
theorem foldlM_induction {σ : Type u} {α : Type v} {f : σ → α → Option σ} {motive : σ → Prop}
    (step : ∀ s x next, motive s → f s x = some next → motive next) {xs : List α} {s last : σ}
    (hs : motive s) (h : xs.foldlM f s = some last) : motive last := by
  induction xs generalizing s with
  | nil =>
    cases h
    exact hs
  | cons x xs ih =>
    rw [List.foldlM_cons] at h
    obtain ⟨next, hnext, hrest⟩ := Option.bind_eq_some_iff.1 h
    exact ih (step s x next hs hnext) hrest

namespace Grammar

/-- Entries for a word of `length` characters and `width` nonterminals. -/
structure SpanTable where
  length : Nat
  width : Nat
  entries : Array Bool
  deriving DecidableEq

namespace SpanTable

/-- The table in which nothing is known. -/
def unknown (length width : Nat) : SpanTable where
  length := length
  width := width
  entries := Array.replicate ((length + 1) * (length + 1) * width) false

variable (t : SpanTable)

/-- Place of the entry for nonterminal number `a` between positions `i` and `j`. -/
def place (i j a : Nat) : Nat := (i * (t.length + 1) + j) * t.width + a

/-- Whether nonterminal number `a` is known to derive what stands between `i` and `j`. -/
def get? (i j a : Nat) : Option Bool := t.entries[t.place i j a]?

/-- Enters that nonterminal number `a` derives what stands between `i` and `j`. -/
def put (i j a : Nat) : SpanTable :=
  { t with entries := t.entries.setIfInBounds (t.place i j a) true }

/-- How many entries are still to be made. -/
def missing : Nat := t.entries.count false

/-! ### Readings -/

/-- Positions to which a token leads from position `i`. A name that is no nonterminal leads
nowhere. -/
def follow? (g : Grammar) (w : Array Char) (i : Nat) : Token → Option (List Nat)
  | .terminal c =>
    if i < t.length then (w[i]?).map fun d ↦ if d = c then [i + 1] else [] else some []
  | .nonterminal name =>
    match g.nonterminals.idxOf? name with
    | none => some []
    | some a => (List.range' i (t.length + 1 - i)).filterM fun j ↦ t.get? i j a

/-- Positions to which a body leads from some positions, in increasing order. The reading stops as
soon as no position is left. -/
def ends? (g : Grammar) (w : Array Char) (positions : List Nat) : Body → Option (List Nat)
  | [] => some positions
  | token :: body => do
    let found ← positions.mapM fun i ↦ t.follow? g w i token
    let next := (found.flatten.mergeSort fun i j ↦ decide (i ≤ j)).eraseReps
    if next.isEmpty then return next else ends? g w next body

/-- Enters a position `j` to which a body of nonterminal number `a` leads from position `i`; the
flag tells whether anything was entered that was not known. -/
def enter? (a i : Nat) (state : Bool × SpanTable) (j : Nat) : Option (Bool × SpanTable) :=
  (state.2.get? i j a).map fun known ↦ if known then state else (true, state.2.put i j a)

/-- Reads a body of nonterminal number `a` from position `i` and enters what it finds. -/
def read? (g : Grammar) (w : Array Char) (state : Bool × SpanTable) :
    Nat × Body × Nat → Option (Bool × SpanTable)
  | (a, body, i) => do
    let ends ← state.2.ends? g w [i] body
    ends.foldlM (enter? a i) state

/-- The readings of a pass: every body of every nonterminal, from every position. -/
def readings (g : Grammar) (length : Nat) : List (Nat × Body × Nat) :=
  g.productions.values.zipIdx.flatMap fun (bodies, a) ↦ bodies.toList.flatMap fun body ↦
    (List.range (length + 1)).map fun i ↦ (a, body, i)

/-- One pass; the flag tells whether it has entered anything. -/
def pass? (g : Grammar) (w : Array Char) : Option (Bool × SpanTable) :=
  (readings g t.length).foldlM (read? g w) (false, t)

/-! ### Passes -/

/-- An entry that is made is not missing any more. -/
theorem missing_put {t : SpanTable} {i j a : Nat} (h : t.get? i j a = some false) :
    (t.put i j a).missing + 1 = t.missing := by
  obtain ⟨hplace, hentry⟩ := Array.getElem?_eq_some_iff.1 h
  have hpos : 0 < t.entries.count false :=
    Array.count_pos_iff.2 (hentry ▸ Array.getElem_mem hplace)
  have hcount : (t.put i j a).missing = t.entries.count false - 1 := by
    simp [missing, put, Array.setIfInBounds, hplace, Array.count_set, hentry]
  rw [hcount, missing]
  omega

/-- The missing entries and, if the flag is set, one more for the entry that has set it. -/
def potential (state : Bool × SpanTable) : Nat := state.2.missing + state.1.toNat

/-- The flag is set for a missing entry only. -/
theorem potential_of_enter? {a i j : Nat} {state next : Bool × SpanTable}
    (h : enter? a i state j = some next) : potential next ≤ potential state := by
  obtain ⟨known, hget, hnext⟩ := Option.map_eq_some_iff.1 h
  cases known with
  | true =>
    cases hnext
    exact Nat.le_refl _
  | false =>
    cases hnext
    change (state.2.put i j a).missing + 1 ≤ state.2.missing + state.1.toNat
    rw [missing_put hget]
    exact Nat.le_add_right _ _

/-- A reading sets the flag for missing entries only. -/
theorem potential_of_read? {g : Grammar} {w : Array Char} {reading : Nat × Body × Nat}
    {state next : Bool × SpanTable} (h : read? g w state reading = some next) :
    potential next ≤ potential state := by
  obtain ⟨ends, _, henter⟩ := Option.bind_eq_some_iff.1 h
  apply foldlM_induction (motive := fun s ↦ potential s ≤ potential state) ?_ (Nat.le_refl _) henter
  intro s j next hs hnext
  exact Nat.le_trans (potential_of_enter? hnext) hs

/-- A pass that enters something leaves fewer missing entries. -/
theorem missing_of_pass? {g : Grammar} {w : Array Char} {t next : SpanTable}
    (h : t.pass? g w = some (true, next)) : next.missing < t.missing := by
  have hle : potential (true, next) ≤ potential (false, t) := by
    apply foldlM_induction (motive := fun s ↦ potential s ≤ potential (false, t)) ?_
      (Nat.le_refl _) h
    intro s reading next hs hnext
    exact Nat.le_trans (potential_of_read? hnext) hs
  simp only [potential, Bool.toNat_true, Bool.toNat_false] at hle
  omega

/-- Passes until one enters nothing. -/
def run? (g : Grammar) (w : Array Char) (t : SpanTable) : Option SpanTable :=
  match _h : t.pass? g w with
  | none => none
  | some (true, next) => run? g w next
  | some (false, next) => some next
termination_by t.missing
decreasing_by exact missing_of_pass? _h

end SpanTable

/-- Whether a grammar generates a word, by the table of its spans (§12.1). -/
def accepts? (g : Grammar) (word : List Char) : Option Bool :=
  let w := word.toArray
  if word.all g.isTerminal then
    match g.nonterminals.idxOf? g.start with
    | none => some false
    | some start => do
      let t ← (SpanTable.unknown w.size g.nonterminals.length).run? g w
      t.get? 0 w.size start
  else some false

end Grammar

end LanguageTheory
