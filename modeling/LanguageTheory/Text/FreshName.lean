/-!
# Fresh names

A name that is already in use is made fresh by primes: `S`, `S'`, `S''` and so on. A fresh name is
not in use and begins with the text it was made from.

Spec guidance: `SPEC_FULL.md` §13.
-/

namespace LanguageTheory

/-- The first of `base`, `base'`, `base''`, … that is not in use. -/
def freshName (base : String) (used : List String) : String :=
  -- A used candidate is struck off: every later candidate is longer, so it is not asked for again.
  if base ∈ used then freshName (base ++ "'") (used.erase base) else base
termination_by used.length
decreasing_by
  rename_i h
  rw [List.length_erase_of_mem h]
  have := List.length_pos_of_mem h
  omega

/-- A fresh name is its base with primes. -/
theorem exists_toList_freshName (base : String) (used : List String) :
    ∃ n, (freshName base used).toList = base.toList ++ List.replicate n '\'' := by
  fun_induction freshName base used with
  | case1 base used h ih =>
    obtain ⟨n, hn⟩ := ih
    refine ⟨n + 1, ?_⟩
    rw [hn, String.toList_append, List.append_assoc, List.replicate_succ]
    rfl
  | case2 base used h => exact ⟨0, by simp⟩

/-- A fresh name is not in use. -/
theorem freshName_notMem (base : String) (used : List String) :
    freshName base used ∉ used := by
  fun_induction freshName base used with
  | case1 base used h ih =>
    obtain ⟨n, hn⟩ := exists_toList_freshName (base ++ "'") (used.erase base)
    have hne : freshName (base ++ "'") (used.erase base) ≠ base := by
      intro he
      have hl := congrArg List.length hn
      rw [he] at hl
      simp at hl
    intro hm
    exact ih ((List.mem_erase_of_ne hne).mpr hm)
  | case2 base used h => exact h

/-- Fresh names of texts that begin differently are different. -/
theorem freshName_ne {base base' : String} {c c' : Char} {cs cs' : List Char} (h : c ≠ c')
    (hbase : base.toList = c :: cs) (hbase' : base'.toList = c' :: cs') (used used' : List String) :
    freshName base used ≠ freshName base' used' := by
  intro he
  obtain ⟨n, hn⟩ := exists_toList_freshName base used
  obtain ⟨n', hn'⟩ := exists_toList_freshName base' used'
  rw [he, hn', hbase, hbase'] at hn
  exact h (List.cons.inj hn).1.symm

end LanguageTheory
