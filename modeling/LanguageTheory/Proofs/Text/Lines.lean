import LanguageTheory.Text.Lines
import Mathlib.Data.List.TakeWhile

/-!
# Cutting text that was put together

Text that was put together from parts is cut into the same parts again, as long as no part has the
separator. Lines that end with a line feed are read back when none of them has a line feed of its
own or ends with a carriage return.
-/

namespace LanguageTheory

variable {separator : Char} {cs before after : List Char}

/-! ### Separators -/

/-- The pieces of a text are the parts of a list between separators. -/
theorem pieces_eq_splitOn (separator : Char) (cs : List Char) :
    pieces separator cs = cs.splitOn separator := by
  induction cs with
  | nil => simp [pieces]
  | cons c cs ih =>
    rw [pieces, ih, List.splitOn_cons_eq_if_modifyHead]
    by_cases h : c = separator
    · simp [h]
    · cases hp : cs.splitOn separator with
      | nil => exact absurd hp (List.splitOn_ne_nil _ _)
      | cons p ps => simp [h]

/-- A text without the separator is one piece. -/
theorem pieces_of_notMem (h : separator ∉ cs) : pieces separator cs = [cs] := by
  rw [pieces_eq_splitOn]
  exact List.splitOn_eq_singleton h

/-- The text before a separator is the first piece. -/
theorem pieces_append_cons (h : separator ∉ before) :
    pieces separator (before ++ separator :: after) = before :: pieces separator after := by
  rw [pieces_eq_splitOn, pieces_eq_splitOn]
  exact List.splitOn_append_cons_self_of_not_mem h after

/-- A text is cut where the part without the separator ends. -/
theorem cut?_append_cons (h : separator ∉ before) :
    cut? separator (before ++ separator :: after) = some (before, after) := by
  have hne : ∀ c ∈ before, decide (c ≠ separator) = true := by
    intro c hc
    have : c ≠ separator := by
      rintro rfl
      exact h hc
    simpa
  rw [cut?, List.dropWhile_append_of_pos hne, List.takeWhile_append_of_pos hne]
  simp

/-- The characters of parts that were put together are those of the parts and of the separator. -/
theorem mem_of_mem_intercalate {c : Char} {separator : List Char} {parts : List (List Char)}
    (h : c ∈ separator.intercalate parts) : c ∈ separator ∨ ∃ part ∈ parts, c ∈ part := by
  rw [List.intercalate, List.mem_flatten] at h
  obtain ⟨part, hpart, hc⟩ := h
  induction parts with
  | nil => cases hpart
  | cons first parts ih =>
    cases parts with
    | nil => exact .inr ⟨part, hpart, hc⟩
    | cons next parts =>
      rw [List.intersperse_cons_cons, List.mem_cons, List.mem_cons] at hpart
      rcases hpart with rfl | rfl | hpart
      · exact .inr ⟨part, List.mem_cons_self, hc⟩
      · exact .inl hc
      · exact (ih hpart).imp_right fun ⟨p, hp, hc⟩ ↦ ⟨p, List.mem_cons_of_mem _ hp, hc⟩

/-- A text is cut at its first separator. -/
theorem cut?_eq_some_iff : cut? separator cs = some (before, after) ↔
    cs = before ++ separator :: after ∧ separator ∉ before := by
  constructor
  · intro h
    by_cases hmem : separator ∈ cs
    · obtain ⟨left, right, rfl, hleft⟩ := List.eq_append_cons_of_mem hmem
      rw [cut?_append_cons hleft] at h
      cases h
      exact ⟨rfl, hleft⟩
    · have hall : cs.dropWhile (· ≠ separator) = [] := by
        rw [List.dropWhile_eq_nil_iff]
        intro c hc
        simpa using fun heq : c = separator ↦ hmem (heq ▸ hc)
      rw [cut?, hall] at h
      cases h
  · rintro ⟨rfl, hbefore⟩
    exact cut?_append_cons hbefore

/-- No piece has the separator. -/
theorem notMem_of_mem_pieces {piece : List Char} (h : piece ∈ pieces separator cs) :
    separator ∉ piece := by
  induction cs generalizing piece with
  | nil =>
    obtain rfl : piece = [] := by simpa [pieces] using h
    exact List.not_mem_nil
  | cons c cs ih =>
    unfold pieces at h
    split at h
    · rcases List.mem_cons.mp h with rfl | h
      · exact List.not_mem_nil
      · exact ih h
    · next hc =>
      split at h
      · next hnil => exact absurd hnil (pieces_ne_nil separator cs)
      · next first rest hpieces =>
        rw [hpieces] at ih
        rcases List.mem_cons.mp h with rfl | h
        · exact List.not_mem_cons_of_ne_of_not_mem (Ne.symm hc) (ih List.mem_cons_self)
        · exact ih (List.mem_cons_of_mem _ h)

/-- The pieces of a text are the only texts without the separator that make up the text when they
are joined by it. -/
theorem pieces_eq_iff {parts : List (List Char)} : pieces separator cs = parts ↔
    parts ≠ [] ∧ (∀ part ∈ parts, separator ∉ part) ∧ [separator].intercalate parts = cs := by
  constructor
  · rintro rfl
    exact ⟨pieces_ne_nil separator cs, fun _ ↦ notMem_of_mem_pieces,
      intercalate_pieces separator cs⟩
  · rintro ⟨hne, hparts, rfl⟩
    rw [pieces_eq_splitOn]
    exact List.splitOn_intercalate separator hparts hne

/-! ### Blanks -/

/-- A text without blanks stays as it is. -/
theorem trim_of_forall (h : ∀ c ∈ cs, isBlank c = false) : trim cs = cs := by
  have hdrop : ∀ {ds : List Char}, (∀ c ∈ ds, isBlank c = false) → ds.dropWhile isBlank = ds := by
    intro ds hds
    cases ds with
    | nil => rfl
    | cons d ds => exact List.dropWhile_cons_of_neg (by simp [hds d])
  rw [trim, hdrop h, hdrop, List.reverse_reverse]
  simpa using h

/-- Nothing is left of a text when all of it is blank. -/
theorem trim_eq_nil_iff : trim cs = [] ↔ ∀ c ∈ cs, isBlank c = true := by
  rw [trim, List.reverse_eq_nil_iff, List.dropWhile_eq_nil_iff]
  simp only [List.mem_reverse]
  constructor
  · intro h c hc
    rw [← List.takeWhile_append_dropWhile (p := isBlank) (l := cs), List.mem_append] at hc
    rcases hc with hc | hc
    · exact List.mem_takeWhile_imp hc
    · exact h c hc
  · intro h c hc
    exact h c ((List.dropWhile_sublist _).subset hc)

/-- The blanks before a text that begins with none are dropped. -/
theorem dropWhile_isBlank_append {left core : List Char} (hleft : ∀ c ∈ left, isBlank c = true)
    (hcore : ∀ c ∈ core.head?, isBlank c = false) :
    (left ++ core).dropWhile isBlank = core := by
  rw [List.dropWhile_append_of_pos hleft]
  cases core with
  | nil => rfl
  | cons c core => exact List.dropWhile_cons_of_neg (by simp [hcore c rfl])

/-- A text that begins with no blank after the blanks before it were dropped. -/
theorem head?_dropWhile_isBlank (cs : List Char) :
    ∀ c ∈ (cs.dropWhile isBlank).head?, isBlank c = false := by
  intro c hc
  have h := List.head?_dropWhile_not isBlank cs
  rw [Option.mem_def.mp hc] at h
  simpa using h

/-- A text without the blanks around it is what is left between them, and it neither begins nor ends
with a blank. -/
theorem trim_eq_iff {core : List Char} : trim cs = core ↔ ∃ left right,
    cs = left ++ core ++ right ∧ (∀ c ∈ left ++ right, isBlank c = true) ∧
      (∀ c ∈ core.head?, isBlank c = false) ∧ ∀ c ∈ core.getLast?, isBlank c = false := by
  constructor
  · rintro rfl
    -- What is dropped at the end is taken from the reversed text.
    let rest := (cs.dropWhile isBlank).reverse
    have hrest : trim cs ++ (rest.takeWhile isBlank).reverse = cs.dropWhile isBlank := by
      rw [trim, ← List.reverse_append, List.takeWhile_append_dropWhile, List.reverse_reverse]
    refine ⟨cs.takeWhile isBlank, (rest.takeWhile isBlank).reverse, ?_, ?_, ?_, ?_⟩
    · rw [List.append_assoc, hrest, List.takeWhile_append_dropWhile]
    · intro c hc
      rcases List.mem_append.mp hc with hc | hc
      · exact List.mem_takeWhile_imp hc
      · exact List.mem_takeWhile_imp (List.mem_reverse.mp hc)
    · intro c hc
      refine head?_dropWhile_isBlank cs c ?_
      rw [← hrest, List.head?_append, Option.mem_def.mp hc]
      rfl
    · rw [trim, List.getLast?_reverse]
      exact head?_dropWhile_isBlank _
  · rintro ⟨left, right, rfl, hblank, hhead, hlast⟩
    have hleft : ∀ c ∈ left, isBlank c = true := fun c hc ↦ hblank c (List.mem_append_left _ hc)
    have hright : ∀ c ∈ right.reverse, isBlank c = true := fun c hc ↦
      hblank c (List.mem_append_right _ (List.mem_reverse.mp hc))
    by_cases hcore : core = []
    · subst hcore
      rw [List.append_nil]
      exact trim_eq_nil_iff.mpr hblank
    · have hne : ∀ c ∈ (core ++ right).head?, isBlank c = false := by
        obtain ⟨c, core, rfl⟩ := List.exists_cons_of_ne_nil hcore
        exact hhead
      rw [trim, List.append_assoc, dropWhile_isBlank_append hleft hne, List.reverse_append,
        dropWhile_isBlank_append hright, List.reverse_reverse]
      rw [List.head?_reverse]
      exact hlast

/-! ### Lines -/

/-- Lines that end with a line feed are read back. -/
theorem lines_flatMap {ls : List (List Char)} (h : ∀ l ∈ ls, '\n' ∉ l ∧ l.getLast? ≠ some '\r') :
    lines (ls.flatMap fun l ↦ l ++ ['\n']) = ls := by
  have hpieces : pieces '\n' (ls.flatMap fun l ↦ l ++ ['\n']) = ls ++ [[]] := by
    induction ls with
    | nil => rfl
    | cons l ls ih =>
      rw [List.flatMap_cons, List.append_assoc, List.singleton_append,
        pieces_append_cons (h l List.mem_cons_self).1,
        ih fun l' hl ↦ h l' (List.mem_cons_of_mem _ hl), List.cons_append]
  have hended : ls.map (fun l ↦ if l.getLast? = some '\r' then l.dropLast else l) = ls := by
    refine (List.map_congr_left fun l hl ↦ ?_).trans (List.map_id' ls)
    exact if_neg (h l hl).2
  rw [lines, hpieces, List.dropLast_concat, List.getLast?_concat, hended]
  rfl

end LanguageTheory
