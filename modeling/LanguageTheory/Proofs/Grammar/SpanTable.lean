import LanguageTheory.Grammar.SpanTable
import LanguageTheory.Proofs.Collections.Indexing
import LanguageTheory.Proofs.Collections.OrderedSet
import LanguageTheory.Proofs.Grammar.Membership

/-!
# What the table of spans knows

The table of spans is written while it is read, so a pass finds more than a round that reads what
was known before it. No access to it fails, everything that is entered is right, and a pass that
enters nothing leaves spans that are closed. So the table answers what the rounds answer.
-/

namespace LanguageTheory

/-- Removing repetitions of neighbours removes no element altogether. -/
theorem mem_eraseReps {α : Type} [DecidableEq α] {x : α} {xs : List α} :
    x ∈ xs.eraseReps ↔ x ∈ xs := by
  have general : ∀ (ys : List α) (y : α) (kept : List α),
      x ∈ List.eraseRepsBy.loop (· == ·) y ys kept ↔ x ∈ kept ∨ x = y ∨ x ∈ ys := by
    intro ys
    induction ys with
    | nil => simp [List.eraseRepsBy.loop, or_comm]
    | cons z ys ih =>
      intro y kept
      rw [List.eraseRepsBy.loop]
      by_cases hyz : y = z
      · subst hyz
        simp [ih]
      · rw [beq_false_of_ne hyz]
        simp [ih, or_assoc, or_left_comm]
  cases xs with
  | nil => rfl
  | cons y ys =>
    rw [List.mem_cons]
    exact (general ys y []).trans (by simp)

namespace Grammar.SpanTable

variable {g : Grammar} {w : List Char} {t : SpanTable} {state : Bool × SpanTable} {s : Span}
  {name : String} {body : Body} {i j k a b : Nat}

/-- A table for the spans of a word. -/
structure Fits (t : SpanTable) (g : Grammar) (w : List Char) : Prop where
  length_eq : t.length = w.length
  width_eq : t.width = g.nonterminals.length
  size_eq : t.entries.size = (t.length + 1) * (t.length + 1) * t.width

/-- A table knows a span when the entry for its nonterminal is made. -/
def Knows (t : SpanTable) (g : Grammar) (s : Span) : Prop :=
  s.first ≤ s.last ∧ s.last ≤ t.length ∧
    ∃ a, g.nonterminals[a]? = some s.name ∧ t.get? s.first s.last a = some true

/-! ### Entries -/

/-- The first table is one for the word. -/
theorem fits_unknown (g : Grammar) (w : List Char) :
    (unknown w.length g.nonterminals.length).Fits g w := by
  constructor <;> simp [unknown]

/-- The first table knows nothing. -/
theorem not_knows_unknown (n m : Nat) (s : Span) : ¬ (unknown n m).Knows g s := by
  rintro ⟨_, _, a, _, hentry⟩
  rw [get?, unknown, Array.getElem?_replicate] at hentry
  split at hentry <;> cases hentry

/-- Entries for different positions or nonterminals have different places. -/
theorem place_inj {j' i' a' : Nat} (hj : j ≤ t.length) (hj' : j' ≤ t.length) (ha : a < t.width)
    (ha' : a' < t.width) (h : t.place i j a = t.place i' j' a') : i = i' ∧ j = j' ∧ a = a' := by
  obtain ⟨hrow, hcolumn⟩ := rowPlace_inj ha ha' h
  obtain ⟨hi, hj⟩ := rowPlace_inj (Nat.lt_succ_of_le hj) (Nat.lt_succ_of_le hj') hrow
  exact ⟨hi, hj, hcolumn⟩

namespace Fits

/-- A nonterminal has a column. -/
theorem lt_width (h : t.Fits g w) (ha : g.nonterminals[a]? = some name) : a < t.width := by
  rw [h.width_eq]
  exact (List.getElem?_eq_some_iff.mp ha).1

/-- There is a place for two positions and a nonterminal. -/
theorem place_lt (h : t.Fits g w) (hi : i ≤ t.length) (hj : j ≤ t.length) (ha : a < t.width) :
    t.place i j a < t.entries.size := by
  rw [h.size_eq]
  apply rowPlace_lt _ ha
  exact rowPlace_lt (Nat.lt_succ_of_le hi) (Nat.lt_succ_of_le hj)

/-- There is an entry for two positions and a nonterminal. -/
theorem exists_get? (h : t.Fits g w) (hi : i ≤ t.length) (hj : j ≤ t.length)
    (ha : g.nonterminals[a]? = some name) : ∃ known, t.get? i j a = some known :=
  ⟨_, Array.getElem?_eq_getElem (h.place_lt hi hj (h.lt_width ha))⟩

/-- What is known about a nonterminal is in the entry with its number. -/
theorem knows_iff (ha : g.nonterminals[a]? = some name) :
    t.Knows g ⟨name, i, j⟩ ↔ i ≤ j ∧ j ≤ t.length ∧ t.get? i j a = some true := by
  constructor
  · rintro ⟨hij, hj, b, hb, hentry⟩
    have hab : b = a := by
      have hnodup : g.nonterminals.Nodup := g.productions.nodup_keys
      have hlt := (List.getElem?_eq_some_iff.mp hb).1
      exact (List.getElem?_inj hlt hnodup).mp (hb.trans ha.symm)
    rw [hab] at hentry
    exact ⟨hij, hj, hentry⟩
  · rintro ⟨hij, hj, hentry⟩
    exact ⟨hij, hj, a, ha, hentry⟩

/-- Known spans lie in the word. -/
theorem le_of_knows (h : t.Fits g w) (hs : t.Knows g s) : s.first ≤ s.last ∧ s.last ≤ w.length := by
  obtain ⟨hle, hlast, _⟩ := hs
  rw [h.length_eq] at hlast
  exact ⟨hle, hlast⟩

/-- A table with one more entry is one for the word. -/
theorem put (h : t.Fits g w) (i j a : Nat) : (t.put i j a).Fits g w := by
  constructor
  · exact h.length_eq
  · exact h.width_eq
  · rw [SpanTable.put, Array.size_setIfInBounds]
    exact h.size_eq

/-- An entry that is made changes no other entry. -/
theorem get?_put {i' j' a' : Nat} (h : t.Fits g w) (hi : i ≤ t.length) (hj : j ≤ t.length)
    (hj' : j' ≤ t.length) (ha : a < t.width) (ha' : a' < t.width) :
    (t.put i j a).get? i' j' a' =
      if i' = i ∧ j' = j ∧ a' = a then some true else t.get? i' j' a' := by
  have hplace : t.place i j a = t.place i' j' a' ↔ i' = i ∧ j' = j ∧ a' = a := by
    constructor
    · intro hsame
      obtain ⟨rfl, rfl, rfl⟩ := place_inj hj hj' ha ha' hsame
      exact ⟨rfl, rfl, rfl⟩
    · rintro ⟨rfl, rfl, rfl⟩
      rfl
  change (t.entries.setIfInBounds (t.place i j a) true)[t.place i' j' a']? = _
  rw [Array.getElem?_setIfInBounds]
  by_cases hsame : t.place i j a = t.place i' j' a'
  · rw [if_pos hsame, if_pos (h.place_lt hi hj ha), if_pos (hplace.mp hsame)]
  · rw [if_neg hsame, if_neg fun hall ↦ hsame (hplace.mpr hall)]
    rfl

/-- A table with one more entry knows one more span. -/
theorem knows_put (h : t.Fits g w) (ha : g.nonterminals[a]? = some name) (hij : i ≤ j)
    (hj : j ≤ t.length) :
    (t.put i j a).Knows g s ↔ t.Knows g s ∨ s = ⟨name, i, j⟩ := by
  have hi : i ≤ t.length := Nat.le_trans hij hj
  have hwidth := h.lt_width ha
  constructor
  · rintro ⟨hle, hlast, b, hb, hentry⟩
    change s.last ≤ t.length at hlast
    rw [h.get?_put hi hj hlast hwidth (h.lt_width hb)] at hentry
    split at hentry
    · next hsame =>
      obtain ⟨hfirst, hlast, rfl⟩ := hsame
      have hname : s.name = name := Option.some.inj (hb.symm.trans ha)
      right
      cases s
      simp_all
    · left
      exact ⟨hle, hlast, b, hb, hentry⟩
  · rintro (⟨hle, hlast, b, hb, hentry⟩ | rfl)
    · refine ⟨hle, hlast, b, hb, ?_⟩
      rw [h.get?_put hi hj hlast hwidth (h.lt_width hb), hentry, ite_self]
    · refine ⟨hij, hj, a, ha, ?_⟩
      rw [h.get?_put hi hj hj hwidth hwidth, if_pos ⟨rfl, rfl, rfl⟩]

/-! ### Readings -/

/-- The last positions of the spans that are known from a position on are found. -/
theorem exists_filterM_get? (h : t.Fits g w) (ha : g.nonterminals[a]? = some name)
    (hi : i ≤ t.length) : ∃ found,
      (List.range' i (t.length + 1 - i)).filterM (fun j ↦ t.get? i j a) = some found ∧
        ∀ j, j ∈ found ↔ t.Knows g ⟨name, i, j⟩ := by
  have hfound : ∀ j ∈ List.range' i (t.length + 1 - i),
      t.get? i j a = some ((t.get? i j a).getD false) := by
    intro j hj
    rw [List.mem_range'_1] at hj
    have hle : j ≤ t.length := by omega
    obtain ⟨known, hknown⟩ := h.exists_get? hi hle ha
    rw [hknown]
    rfl
  refine ⟨_, filterM_eq_some_filter hfound, fun j ↦ ?_⟩
  have hrange : i ≤ j ∧ j < i + (t.length + 1 - i) ↔ i ≤ j ∧ j ≤ t.length := by omega
  rw [List.mem_filter, List.mem_range'_1, hrange, knows_iff ha]
  cases t.get? i j a <;> simp [and_assoc]

/-- A token is followed without a failure, and leads over the spans that are known. -/
theorem exists_follow? (h : t.Fits g w) (hi : i ≤ t.length) (token : Token) :
    ∃ found, t.follow? g w.toArray i token = some found ∧
      ∀ j, j ∈ found ↔ Leads (t.Knows g) w [token] i j := by
  cases token with
  | terminal c =>
    rw [follow?]
    simp only [Leads.terminal_iff]
    by_cases hlt : i < t.length
    · have hchar : i < w.length := h.length_eq ▸ hlt
      rw [if_pos hlt, List.getElem?_toArray, List.getElem?_eq_getElem hchar]
      refine ⟨_, rfl, fun j ↦ ?_⟩
      by_cases hc : w[i] = c <;> simp [hc]
    · have hnone : w[i]? = none := List.getElem?_eq_none (by rw [← h.length_eq]; omega)
      rw [if_neg hlt]
      exact ⟨[], rfl, fun j ↦ by simp [hnone]⟩
  | nonterminal name =>
    simp only [follow?, Leads.nonterminal_iff]
    cases ha : g.nonterminals.idxOf? name with
    | none =>
      refine ⟨[], rfl, fun j ↦ iff_of_false List.not_mem_nil ?_⟩
      rintro ⟨_, _, a, hname, _⟩
      exact List.idxOf?_eq_none_iff.mp ha (List.mem_of_getElem? hname)
    | some a =>
      have hnumber := (idxOf?_eq_some_iff_of_nodup g.productions.nodup_keys).mp ha
      exact h.exists_filterM_get? hnumber hi

/-- A token is followed from several positions without a failure. -/
theorem exists_mapM_follow? (h : t.Fits g w) {positions : List Nat}
    (hpositions : ∀ i ∈ positions, i ≤ t.length) (token : Token) : ∃ found,
      positions.mapM (fun i ↦ t.follow? g w.toArray i token) = some found ∧
        ∀ k, k ∈ found.flatten ↔ ∃ i ∈ positions, Leads (t.Knows g) w [token] i k := by
  induction positions with
  | nil => exact ⟨[], rfl, fun k ↦ by simp⟩
  | cons i positions ih =>
    obtain ⟨hi, hpositions⟩ := List.forall_mem_cons.mp hpositions
    obtain ⟨found, hfound, hmem⟩ := h.exists_follow? hi token
    obtain ⟨others, hothers, hall⟩ := ih hpositions
    refine ⟨found :: others, ?_, fun k ↦ ?_⟩
    · rw [List.mapM_cons, hfound, hothers]
      rfl
    · rw [List.flatten_cons, List.mem_append, hmem, hall, List.exists_mem_cons_iff]

/-- A body is read without a failure, and leads over the spans that are known. -/
theorem exists_ends? (h : t.Fits g w) {positions : List Nat}
    (hpositions : ∀ i ∈ positions, i ≤ t.length) (body : Body) :
    ∃ ends, t.ends? g w.toArray positions body = some ends ∧
      ∀ j, j ∈ ends ↔ ∃ i ∈ positions, Leads (t.Knows g) w body i j := by
  induction body generalizing positions with
  | nil => exact ⟨positions, rfl, fun j ↦ by simp [Leads.nil_iff]⟩
  | cons token body ih =>
    obtain ⟨found, hfound, hmem⟩ := h.exists_mapM_follow? hpositions token
    have hnext : ∀ k, k ∈ (found.flatten.mergeSort fun i j ↦ decide (i ≤ j)).eraseReps ↔
        ∃ i ∈ positions, Leads (t.Knows g) w [token] i k := by
      intro k
      rw [mem_eraseReps, List.mem_mergeSort, hmem]
    rw [ends?, hfound, Option.bind_eq_bind, Option.bind_some]
    generalize (found.flatten.mergeSort fun i j ↦ decide (i ≤ j)).eraseReps = next at hnext
    simp only [Leads.exists_cons_iff hnext]
    cases next with
    | nil => exact ⟨[], rfl, fun j ↦ by simp⟩
    | cons k next =>
      apply ih
      intro k hk
      obtain ⟨i, hi, hlead⟩ := (hnext k).mp hk
      have hlast := (hlead.le (fun _ ↦ h.le_of_knows) (h.length_eq ▸ hpositions i hi)).2
      rwa [h.length_eq]

/-- A position is entered without a failure. -/
theorem exists_enter? (h : state.2.Fits g w) (ha : g.nonterminals[a]? = some name) (hij : i ≤ j)
    (hj : j ≤ w.length) : ∃ next, enter? a i state j = some next ∧ next.2.Fits g w ∧
      (∀ s, next.2.Knows g s ↔ state.2.Knows g s ∨ s = ⟨name, i, j⟩) ∧
      (next.1 = false → next = state) := by
  rw [← h.length_eq] at hj
  obtain ⟨known, hknown⟩ := h.exists_get? (Nat.le_trans hij hj) hj ha
  rw [enter?, hknown]
  cases known with
  | true =>
    refine ⟨state, rfl, h, fun s ↦ ?_, fun _ ↦ rfl⟩
    have hspan : state.2.Knows g ⟨name, i, j⟩ := (knows_iff ha).mpr ⟨hij, hj, hknown⟩
    constructor
    · exact .inl
    · rintro (hs | rfl)
      · exact hs
      · exact hspan
  | false =>
    exact ⟨(true, state.2.put i j a), rfl, h.put i j a, fun s ↦ h.knows_put ha hij hj, nofun⟩

/-- Positions are entered without a failure, one after the other. -/
theorem exists_foldlM_enter? {ends : List Nat} (h : state.2.Fits g w)
    (ha : g.nonterminals[a]? = some name) (hends : ∀ j ∈ ends, i ≤ j ∧ j ≤ w.length) :
    ∃ last, ends.foldlM (enter? a i) state = some last ∧ last.2.Fits g w ∧
      (∀ s, last.2.Knows g s ↔ state.2.Knows g s ∨ ∃ j ∈ ends, s = ⟨name, i, j⟩) ∧
      (last.1 = false → last = state) := by
  induction ends generalizing state with
  | nil => exact ⟨state, rfl, h, fun s ↦ by simp, fun _ ↦ rfl⟩
  | cons j ends ih =>
    obtain ⟨⟨hij, hj⟩, hends⟩ := List.forall_mem_cons.mp hends
    obtain ⟨next, hnext, hfits, hknows, hflag⟩ := h.exists_enter? ha hij hj
    obtain ⟨last, hlast, hfits', hknows', hflag'⟩ := ih hfits hends
    rw [List.foldlM_cons, hnext]
    refine ⟨last, hlast, hfits', fun s ↦ ?_, fun hfalse ↦ ?_⟩
    · rw [hknows', hknows, List.exists_mem_cons_iff, or_assoc]
    · have hsame := hflag' hfalse
      rw [hsame] at hfalse ⊢
      exact hflag hfalse

/-- A body is read and its spans are entered without a failure. -/
theorem exists_read? (h : state.2.Fits g w) (ha : g.nonterminals[a]? = some name)
    (hi : i ≤ w.length) (body : Body) : ∃ next,
      read? g w.toArray state (a, body, i) = some next ∧ next.2.Fits g w ∧
      (∀ s, next.2.Knows g s ↔ state.2.Knows g s ∨
        ∃ j, Leads (state.2.Knows g) w body i j ∧ s = ⟨name, i, j⟩) ∧
      (next.1 = false → next = state) := by
  have hposition : ∀ k ∈ [i], k ≤ state.2.length := by simpa [h.length_eq] using hi
  obtain ⟨ends, hread, hends⟩ := h.exists_ends? hposition body
  have hlead : ∀ j, j ∈ ends ↔ Leads (state.2.Knows g) w body i j := by simpa using hends
  have hinside : ∀ j ∈ ends, i ≤ j ∧ j ≤ w.length := fun j hj ↦
    ((hlead j).mp hj).le (fun _ ↦ h.le_of_knows) hi
  obtain ⟨next, hnext, hfits, hknows, hflag⟩ := h.exists_foldlM_enter? ha hinside
  refine ⟨next, ?_, hfits, fun s ↦ ?_, hflag⟩
  · rw [read?, hread]
    exact hnext
  · rw [hknows]
    simp only [hlead]

end Fits

/-! ### Passes -/

/-- The readings of a pass are those of all bodies from all positions. -/
theorem mem_readings_iff {n : Nat} : (a, body, i) ∈ readings g n ↔
    ∃ name, g.nonterminals[a]? = some name ∧ body ∈ g.bodies name ∧ i ≤ n := by
  simp only [readings, List.mem_flatMap, List.mem_map, List.mem_range, Prod.mk.injEq]
  constructor
  · rintro ⟨⟨bodies, b⟩, hb, body', hbody, i', hi, rfl, rfl, rfl⟩
    rw [List.mk_mem_zipIdx_iff_getElem?, Table.values, List.getElem?_map,
      Option.map_eq_some_iff] at hb
    obtain ⟨⟨name, bodies⟩, hentry, rfl⟩ := hb
    refine ⟨name, ?_, ?_, by omega⟩
    · rw [nonterminals, Table.keys, List.getElem?_map, hentry]
      rfl
    · have hget := Table.get?_eq_some_iff.mpr (List.mem_of_getElem? hentry)
      exact Productions.mem_bodies_iff.mpr ⟨bodies, hget, hbody⟩
  · rintro ⟨name, hname, hbody, hi⟩
    rw [nonterminals, Table.keys, List.getElem?_map, Option.map_eq_some_iff] at hname
    obtain ⟨⟨name, alternatives⟩, hentry, rfl⟩ := hname
    have hget := Table.get?_eq_some_iff.mpr (List.mem_of_getElem? hentry)
    have halternative : body ∈ alternatives := by
      rwa [bodies, Productions.bodies_of_get? hget] at hbody
    refine ⟨(alternatives, a), ?_, body, halternative, i, by omega, rfl, rfl, rfl⟩
    rw [List.mk_mem_zipIdx_iff_getElem?, Table.values, List.getElem?_map, hentry]
    rfl

/-- Readings are made without a failure. What they enter is right, and if they enter nothing, then
all that they find was known. -/
theorem exists_foldlM_read? {rs : List (Nat × Body × Nat)} (h : state.2.Fits g w)
    (hrs : ∀ r ∈ rs, r ∈ readings g w.length) :
    ∃ last, rs.foldlM (read? g w.toArray) state = some last ∧ last.2.Fits g w ∧
      ((∀ s, state.2.Knows g s → s.Right g w) → ∀ s, last.2.Knows g s → s.Right g w) ∧
      (last.1 = false → last = state ∧ ∀ a body i, (a, body, i) ∈ rs → ∀ name,
        g.nonterminals[a]? = some name → ∀ j, Leads (state.2.Knows g) w body i j →
          state.2.Knows g ⟨name, i, j⟩) := by
  induction rs generalizing state with
  | nil => exact ⟨state, rfl, h, id, fun _ ↦ ⟨rfl, nofun⟩⟩
  | cons r rs ih =>
    obtain ⟨a, body, i⟩ := r
    obtain ⟨hr, hrs⟩ := List.forall_mem_cons.mp hrs
    obtain ⟨name, ha, hbody, hi⟩ := mem_readings_iff.mp hr
    obtain ⟨next, hnext, hfits, hknows, hflag⟩ := h.exists_read? ha hi body
    obtain ⟨last, hlast, hfits', hright, hclosed⟩ := ih hfits hrs
    rw [List.foldlM_cons, hnext]
    refine ⟨last, hlast, hfits', fun hstate ↦ hright fun s hs ↦ ?_, fun hfalse ↦ ?_⟩
    · rcases (hknows s).mp hs with hs | ⟨j, hlead, rfl⟩
      · exact hstate s hs
      · exact isClosed_right g w name body hbody i j hi (hlead.mono hstate)
    · obtain ⟨hsame, hall⟩ := hclosed hfalse
      rw [hsame] at hfalse
      have hfirst := hflag hfalse
      rw [hfirst] at hsame hall hknows
      refine ⟨hsame, fun b body' k hmem name' hb j hlead ↦ ?_⟩
      rcases List.mem_cons.mp hmem with heq | hmem
      · cases heq
        cases ha.symm.trans hb
        exact (hknows _).mpr (.inr ⟨j, hlead, rfl⟩)
      · exact hall b body' k hmem name' hb j hlead

/-- A pass does not fail. What it enters is right, and if it enters nothing, then the spans that are
known are closed. -/
theorem Fits.exists_pass? (h : t.Fits g w) : ∃ changed next,
    t.pass? g w.toArray = some (changed, next) ∧ next.Fits g w ∧
      ((∀ s, t.Knows g s → s.Right g w) → ∀ s, next.Knows g s → s.Right g w) ∧
      (changed = false → IsClosed g w (next.Knows g)) := by
  have hreadings : ∀ r ∈ readings g t.length, r ∈ readings g w.length := by
    rw [h.length_eq]
    exact fun _ hr ↦ hr
  have hstate : (false, t).2.Fits g w := h
  obtain ⟨⟨changed, next⟩, hpass, hfits, hright, hclosed⟩ := exists_foldlM_read? hstate hreadings
  refine ⟨changed, next, hpass, hfits, hright, fun hchanged ↦ ?_⟩
  obtain ⟨hsame, hall⟩ := hclosed hchanged
  obtain rfl : next = t := congrArg Prod.snd hsame
  intro name body hbody i j hi hlead
  obtain ⟨a, ha⟩ := List.mem_iff_getElem?.mp (Productions.mem_keys_of_mem_bodies hbody)
  apply hall a body i _ name ha j hlead
  rw [mem_readings_iff, h.length_eq]
  exact ⟨name, ha, hbody, hi⟩

/-- Passes end without a failure, with spans that are right and closed. -/
theorem Fits.exists_run? (h : t.Fits g w) (hright : ∀ s, t.Knows g s → s.Right g w) :
    ∃ last, run? g w.toArray t = some last ∧ last.Fits g w ∧
      (∀ s, last.Knows g s → s.Right g w) ∧ IsClosed g w (last.Knows g) := by
  fun_induction run? g w.toArray t with
  | case1 t hpass =>
    obtain ⟨_, _, hfound, _⟩ := h.exists_pass?
    cases hpass.symm.trans hfound
  | case2 t next hpass ih =>
    obtain ⟨_, _, hfound, hfits, hkept, _⟩ := h.exists_pass?
    cases hpass.symm.trans hfound
    exact ih hfits (hkept hright)
  | case3 t next hpass =>
    obtain ⟨_, _, hfound, hfits, hkept, hclosed⟩ := h.exists_pass?
    cases hpass.symm.trans hfound
    exact ⟨next, rfl, hfits, hkept hright, hclosed rfl⟩

/-- The passes that begin with the table in which nothing is known end without a failure, with an
entry for every nonterminal and stretch of the word, and these entries are right. -/
theorem exists_run?_unknown (g : Grammar) (w : List Char) : ∃ last,
    run? g w.toArray (unknown w.length g.nonterminals.length) = some last ∧
      ∀ a name, g.nonterminals[a]? = some name → ∀ i j, i ≤ j → j ≤ w.length →
        ∃ known, last.get? i j a = some known ∧ (known = true ↔ Span.Right g w ⟨name, i, j⟩) := by
  obtain ⟨last, hrun, hfits, hright, hclosed⟩ := (fits_unknown g w).exists_run? fun s hs ↦
    absurd hs (not_knows_unknown _ _ s)
  refine ⟨last, hrun, fun a name ha i j hij hj ↦ ?_⟩
  rw [← hfits.length_eq] at hj
  obtain ⟨known, hknown⟩ := hfits.exists_get? (Nat.le_trans hij hj) hj ha
  have hentry : last.Knows g ⟨name, i, j⟩ ↔ known = true := by
    rw [Fits.knows_iff ha, hknown]
    simp [hij, hj]
  exact ⟨known, hknown, hentry.symm.trans ⟨hright _, hclosed.known_of_right⟩⟩

end Grammar.SpanTable

namespace Grammar

/-- The table of spans is filled without a failure and answers what the rounds answer. -/
theorem accepts?_eq_some (g : Grammar) (w : List Char) : g.accepts? w = some (g.accepts w) := by
  rw [accepts?, accepts]
  cases hall : w.all g.isTerminal with
  | false => rfl
  | true =>
    have hspan : (g.spans w.toArray).contains ⟨g.start, 0, w.length⟩ = true ↔
        Span.Right g w ⟨g.start, 0, w.length⟩ := by
      rw [Agenda.contains_iff, mem_spans_iff]
    rw [if_pos rfl, Bool.true_and, List.size_toArray]
    cases hstart : g.nonterminals.idxOf? g.start with
    | none =>
      have hname : g.start ∉ g.nonterminals := List.idxOf?_eq_none_iff.mp hstart
      exact congrArg some (Bool.eq_false_iff.mpr fun h ↦ hname (hspan.mp h).name_mem).symm
    | some start =>
      have hnumber := (idxOf?_eq_some_iff_of_nodup g.productions.nodup_keys).mp hstart
      obtain ⟨last, hrun, hentries⟩ := SpanTable.exists_run?_unknown g w
      obtain ⟨known, hknown, hright⟩ :=
        hentries start g.start hnumber 0 w.length (Nat.zero_le _) (Nat.le_refl _)
      dsimp only
      rw [hrun, Option.bind_eq_bind, Option.bind_some, hknown]
      exact congrArg some (Bool.eq_iff_iff.mpr (hright.trans hspan.symm))

/-- For every grammar, whatever bodies it has, membership is found in the table of spans, and is
decided by the derivations of the start symbol. -/
theorem accepts?_eq_some_and_iff_generates {g : Grammar} (hg : g.WellFormed) (w : List Char) :
    g.accepts? w = some (g.accepts w) ∧ (g.accepts w = true ↔ g.Generates w) := by
  constructor
  · exact accepts?_eq_some g w
  · rw [accepts_iff_language hg, generates_iff]

/-- Membership in a grammar with the empty body, a cycle of units and left recursion finds a
derivation of one word and shows that there is none of another. -/
theorem accepts?_tangled :
    tangled.WellFormed ∧ tangled.accepts? ['a', 'a'] = some true ∧ tangled.Generates ['a', 'a'] ∧
      tangled.accepts? ['a', 'b'] = some false ∧ ¬ tangled.Generates ['a', 'b'] := by
  have hwellFormed : tangled.WellFormed := by decide
  have haccepts : tangled.accepts ['a', 'a'] = true := by cbv
  have hrejects : tangled.accepts ['a', 'b'] = false := by cbv
  obtain ⟨hyes, hgenerates⟩ := accepts?_eq_some_and_iff_generates hwellFormed ['a', 'a']
  obtain ⟨hno, hgenerates'⟩ := accepts?_eq_some_and_iff_generates hwellFormed ['a', 'b']
  rw [haccepts] at hyes
  rw [hrejects] at hno hgenerates'
  refine ⟨hwellFormed, hyes, hgenerates.mp haccepts, hno, fun h ↦ ?_⟩
  cases hgenerates'.mpr h

end Grammar

end LanguageTheory
