import LanguageTheory.Numbered.Sources
import LanguageTheory.Proofs.AutomatonDraft
import LanguageTheory.Proofs.Numbered.Minimization
import LanguageTheory.Proofs.Numbered.Subsets
import LanguageTheory.Proofs.Regex.Thompson

/-!
# Numbered automata that are made without a failure

Whatever a draft lists, no lookup fails when its automaton is made: either the draft is refused for
the same reason, or the result is the automaton of the draft. The labels of the elements of sets of
states are found when they exist, as they do for drafts and expressions.
-/

namespace LanguageTheory

/-! ### Drafts -/

namespace AutomatonDraft

open NumberedDfa (State assemble?)

variable {d : AutomatonDraft} {e : Dfa} {n : Nfa} {t : Table (Nat × Symbol) (OrderedSet Nat)}
  {targets : OrderedSet Nat} {i : Nat} {c : Char} {es : List ((Nat × Symbol) × OrderedSet Nat)}

/-- Entry of a state for a character in a table of transitions. -/
def target? (t : Table (Nat × Symbol) (OrderedSet Nat)) (i : Nat) (c : Char) : Option Nat :=
  (t.get? (i, .char c)).bind OrderedSet.first?

/-- The row of a state. -/
def row (n : Nfa) (t : Table (Nat × Symbol) (OrderedSet Nat)) (i : Nat) (label : String) : State :=
  ⟨i, label, n.isAccepting i, n.alphabet.toList.map (target? t i)⟩

/-- The rows of the states when the transitions of a table are entered. -/
def rows (n : Nfa) (t : Table (Nat × Symbol) (OrderedSet Nat)) : List State :=
  n.labels.toList.mapIdx (row n t)

/-- The rows before any transition is entered are those of the table without entries. -/
theorem emptyRows_eq (n : Nfa) : emptyRows n = rows n ∅ := by
  refine congrArg (n.labels.toList.mapIdx ·) (funext fun i ↦ funext fun label ↦ ?_)
  exact congrArg (State.mk i label (n.isAccepting i)) List.map_const'.symm

/-- Rows depend on the values of the keys only. -/
theorem rows_congr {t' : Table (Nat × Symbol) (OrderedSet Nat)} (h : ∀ k, t.get? k = t'.get? k) :
    rows n t = rows n t' := by
  have htarget : target? t = target? t' := funext fun i ↦ funext fun c ↦ by
    rw [target?, target?, h]
  unfold rows row
  rw [htarget]

/-- A key that is given a set gets its first element as entry. -/
theorem target?_insert (j : Nat) : target? (t.insert (i, .char c) targets) j =
    if j = i then Function.update (target? t i) c targets.first? else target? t j := by
  funext c'
  rw [target?, Table.get?_insert]
  by_cases hj : j = i
  · subst hj
    by_cases hc : c' = c
    · subst hc
      simp
    · simp [hc, target?]
  · simp [hj, target?]

/-- Writing the entry of one key changes the row of its state. -/
theorem set_rows {label : String} {k : Nat} (hlabel : n.labels.toList[i]? = some label)
    (hk : n.alphabet.toList[k]? = some c) :
    (rows n t).set i { row n t i label with
      next := (row n t i label).next.set k targets.first? } =
      rows n (t.insert (i, .char c) targets) := by
  have hnext : (n.alphabet.toList.map (target? t i)).set k targets.first? =
      n.alphabet.toList.map (Function.update (target? t i) c targets.first?) :=
    set_map_of_getElem? n.alphabet.chars.nodup hk _
  refine List.ext_getElem? fun j ↦ ?_
  rw [List.getElem?_set, rows, rows, List.getElem?_mapIdx, List.getElem?_mapIdx]
  by_cases hj : i = j
  · subst hj
    have hi : i < (n.labels.toList.mapIdx (row n t)).length := by
      rw [List.length_mapIdx]
      exact (List.getElem?_eq_some_iff.mp hlabel).1
    rw [if_pos rfl, if_pos hi, hlabel, Option.map_some, row, row, target?_insert, if_pos rfl]
    dsimp only
    rw [hnext]
  · rw [if_neg hj]
    refine congrArg (Option.map · _) (funext fun label ↦ ?_)
    rw [row, row, target?_insert, if_neg (Ne.symm hj)]

/-- The reason why an entry of a table is not deterministic. -/
def conflictAt? (n : Nfa) (entry : (Nat × Symbol) × OrderedSet Nat) : Option Error :=
  match entry with
  | ((_, .epsilon), _) => some (.unknownSymbol epsilonChar)
  | ((i, .char c), targets) =>
    if 1 < targets.size then some (.nondeterministicTransition (n.label i) c) else none

/-- The first entry that is not deterministic gives the reason for a table. -/
theorem conflict?_eq (n : Nfa) : conflict? n = n.delta.entries.findSome? (conflictAt? n) := by
  refine congrArg (n.delta.entries.findSome? ·) (funext fun ((i, s), targets) ↦ ?_)
  cases s <;> rfl

/-- An entry is written when its state and its character are declared, unless it is not
deterministic. -/
theorem run_enter? {entry : (Nat × Symbol) × OrderedSet Nat}
    (hi : entry.1.1 < n.numStates) (hc : ∀ c, entry.1.2 = .char c → c ∈ n.alphabet) :
    (enter? n (rows n t) entry).run = some (match conflictAt? n entry with
      | some e => .error e
      | none => .ok (rows n (t.insert entry.1 entry.2))) := by
  obtain ⟨⟨i, s⟩, targets⟩ := entry
  cases s with
  | epsilon => rfl
  | char c =>
    obtain ⟨label, hlabel⟩ : ∃ label, n.labels.toList[i]? = some label :=
      ⟨_, List.getElem?_eq_getElem hi⟩
    obtain ⟨k, hk⟩ := OrderedSet.exists_idxOf?_eq_some (hc c rfl)
    rw [conflictAt?, enter?]
    by_cases hsize : 1 < targets.size
    · have hget : n.labels.get? i = some label := hlabel
      have hlabel' : n.label i = label := by rw [Nfa.label, hget]; rfl
      rw [if_pos hsize, if_pos hsize, hget, hlabel']
      rfl
    · rw [if_neg hsize, if_neg hsize]
      have hrow : (rows n t)[i]? = some (row n t i label) := by
        rw [rows, List.getElem?_mapIdx, hlabel]; rfl
      have hplace : n.alphabet.idxOf? c = some k := hk
      have hchar := Alphabet.idxOf?_eq_some_iff.mp hplace
      have hentry : (row n t i label).next[k]? = some (target? t i c) := by
        rw [row, List.getElem?_map, hchar]; rfl
      rw [hplace, Option.getD_some, hrow, ← set_rows hlabel hchar]
      change ((Except.ok : _ → Except Error _) <$> (row n t i label).next[k]?) >>= _ = _
      rw [hentry]
      rfl

/-- Writing declared entries ends at the first one that is not deterministic, if there is any. -/
theorem run_foldlM_enter?
    (hes : ∀ e ∈ es, e.1.1 < n.numStates ∧ ∀ c, e.1.2 = .char c → c ∈ n.alphabet) :
    (es.foldlM (enter? n) (rows n t)).run = some (match es.findSome? (conflictAt? n) with
      | some e => .error e
      | none => .ok (rows n (t.insertMany es))) := by
  induction es generalizing t with
  | nil => rfl
  | cons entry es ih =>
    obtain ⟨⟨hi, hc⟩, hes⟩ := List.forall_mem_cons.mp hes
    rw [List.foldlM_cons, ExceptT.run_bind, run_enter? hi hc, List.findSome?_cons]
    cases hentry : conflictAt? n entry with
    | some e => rfl
    | none => exact ih hes

/-- The records of the deterministic automaton of a draft are the rows of its transitions. -/
theorem states_numbered_firstTargets (n : Nfa) (initial : Nat) :
    (firstTargets n initial).numbered.states = rows n n.delta :=
  List.mapIdx_mapIdx

/-- The entries of the table of a draft are for declared states and characters. -/
theorem declared_of_check (h : d.check = .ok n) : ∀ e ∈ n.delta.entries,
    e.1.1 < n.numStates ∧ ∀ c, e.1.2 = .char c → c ∈ n.alphabet := by
  rintro ⟨⟨i, s⟩, targets⟩ he
  obtain ⟨j, hj⟩ := (filled_of_check h).exists_lists (Table.get?_eq_some_iff.mpr he)
  have hmove := Nfa.mem_transitions_iff_lists.mpr hj
  refine ⟨((isLabelled_of_check h).lt_of_mem_transitions hmove).1, fun c hc ↦ ?_⟩
  cases hc
  exact readsDeclared_of_check h i c j hmove

/-- The table of a draft is written without a failure: either the draft is refused for the same
reason, or the table has the records of its automaton. -/
theorem run_toNumbered? (d : AutomatonDraft) :
    d.toNumbered?.run = some (d.toDfa.map Dfa.numbered) := by
  have hdfa : d.toDfa = d.check.bind fun n ↦ (uniqueInitial n.initial).bind fun i ↦
      match conflict? n with
      | some e => .error e
      | none => .ok (firstTargets n i) := rfl
  rw [toNumbered?, ExceptT.run_bind, ExceptT.run_mk, hdfa]
  cases hn : d.check with
  | error e => rfl
  | ok n =>
    dsimp only [Option.bind_eq_bind, Option.bind_some, Except.bind]
    rw [ExceptT.run_bind, ExceptT.run_mk]
    cases hi : uniqueInitial n.initial with
    | error e => rfl
    | ok i =>
      dsimp only [Option.bind_eq_bind, Option.bind_some, Except.bind]
      rw [ExceptT.run_bind, emptyRows_eq, run_foldlM_enter? (declared_of_check hn),
        ← conflict?_eq]
      cases hconflict : conflict? n with
      | some e => rfl
      | none =>
        have hwell := wellFormed_of_toDfa (toDfa_eq_ok_iff.mpr ⟨n, i, hn, hi, hconflict, rfl⟩)
        have hrows : rows n ((∅ : Table _ _).insertMany n.delta.entries) = rows n n.delta :=
          rows_congr fun k ↦ by rw [Table.get?_insertMany_entries]; exact Option.or_none
        have hassemble : assemble? n.alphabet (rows n n.delta) i =
            some (firstTargets n i).numbered :=
          hwell.assemble?_eq rfl (states_numbered_firstTargets n i).symm rfl
        dsimp only [Option.bind_eq_bind, Option.bind_some, Except.bind]
        rw [ExceptT.run_lift, hrows, hassemble]
        rfl

end AutomatonDraft

/-! ### Expressions -/

/-- The numbered minimal automaton of an expression is found, if there are fewer than `2 ^ 32`
states in the automaton that is minimized. -/
theorem Regex.toNumbered?_eq_some (r : Regex)
    (hsize : r.toNfa.toDfa.total.numStates < UInt32.size) :
    r.toNumbered? = some r.toDfa.numbered := by
  rw [Regex.toNumbered?]
  refine Option.bind_eq_some_iff.mpr ⟨_, r.isLabelled_toNfa.toNumbered?_eq_some, ?_⟩
  exact r.toNfa.wellFormed_toDfa.minimize?_numbered hsize

end LanguageTheory
