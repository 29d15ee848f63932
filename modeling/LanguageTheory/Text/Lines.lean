/-!
# Cutting text

Text is cut into lines, into the pieces between separators, and free of the blanks around it. Blank
characters are those with the Unicode property `White_Space`.

Spec guidance: `SPEC_FULL.md` §§6, 13.
-/

namespace LanguageTheory

/-- Characters with the property `White_Space`, as ranges of code points. -/
def blankRanges : List (Nat × Nat) :=
  [(0x9, 0xD), (0x20, 0x20), (0x85, 0x85), (0xA0, 0xA0), (0x1680, 0x1680), (0x2000, 0x200A),
    (0x2028, 0x2029), (0x202F, 0x202F), (0x205F, 0x205F), (0x3000, 0x3000)]

/-- Whether a character is blank. -/
def isBlank (c : Char) : Bool := blankRanges.any fun (lo, hi) ↦ lo ≤ c.toNat && c.toNat ≤ hi

/-- The pieces of a text between occurrences of a separator. -/
def pieces (separator : Char) : List Char → List (List Char)
  | [] => [[]]
  | c :: cs =>
    if c = separator then [] :: pieces separator cs
    else
      match pieces separator cs with
      | [] => [[c]]
      | p :: ps => (c :: p) :: ps

/-- The text before and after the first separator. -/
def cut? (separator : Char) (cs : List Char) : Option (List Char × List Char) :=
  match cs.dropWhile (· ≠ separator) with
  | [] => none
  | _ :: rest => some (cs.takeWhile (· ≠ separator), rest)

/-- A text without the blanks around it. -/
def trim (cs : List Char) : List Char :=
  ((cs.dropWhile isBlank).reverse.dropWhile isBlank).reverse

/-- The lines of a text. A line ends with a line feed, to which a carriage return before it belongs;
after the last line feed there is another line only if there are characters. -/
def lines (cs : List Char) : List (List Char) :=
  let parts := pieces '\n' cs
  let ended := parts.dropLast.map fun l ↦ if l.getLast? = some '\r' then l.dropLast else l
  let unended := (parts.getLast?.getD []).isEmpty
  if unended then ended else ended ++ [parts.getLast?.getD []]

/-- The rest after a separator is shorter than the text. -/
theorem length_of_cut? {separator : Char} {cs before after : List Char}
    (h : cut? separator cs = some (before, after)) : after.length < cs.length := by
  unfold cut? at h
  split at h
  · cases h
  · next c rest hd =>
    cases h
    have hs := (List.dropWhile_sublist (l := cs) (· ≠ separator)).length_le
    rw [hd, List.length_cons] at hs
    omega

/-- A text has at least one piece. -/
theorem pieces_ne_nil (separator : Char) (cs : List Char) : pieces separator cs ≠ [] := by
  cases cs with
  | nil => simp [pieces]
  | cons c cs =>
    unfold pieces
    split
    · simp
    · split <;> simp

/-- Joining the pieces with the separator gives the text. -/
theorem intercalate_pieces (separator : Char) (cs : List Char) :
    List.intercalate [separator] (pieces separator cs) = cs := by
  induction cs with
  | nil => rfl
  | cons c cs ih =>
    unfold pieces
    split
    · next h =>
      subst h
      cases hp : pieces c cs with
      | nil => exact absurd hp (pieces_ne_nil _ _)
      | cons p ps =>
        rw [hp] at ih
        rw [← ih]
        simp [List.intercalate]
    · split
      · next hp => exact absurd hp (pieces_ne_nil _ _)
      · next p ps hp =>
        rw [hp] at ih
        rw [← ih]
        cases ps <;> simp [List.intercalate]

end LanguageTheory
