import LanguageTheory.Collections.OrderedSet
import LanguageTheory.Error
import LanguageTheory.Symbol

/-!
# Alphabets

An alphabet is a finite set of characters, numbered in the order of their declaration. Two alphabets
are equivalent when they have the same characters.

Spec guidance: `SPEC_FULL.md` §§3, 11.4.
-/

namespace LanguageTheory

/-- Finite set of characters in the order of their declaration. -/
@[ext]
structure Alphabet where
  chars : OrderedSet Char
  deriving DecidableEq

namespace Alphabet

/-- Membership is membership in the characters. -/
instance : Membership Char Alphabet := ⟨fun a c ↦ c ∈ a.chars⟩

instance (c : Char) (a : Alphabet) : Decidable (c ∈ a) :=
  inferInstanceAs (Decidable (c ∈ a.chars))

/-- The alphabet without characters. -/
def empty : Alphabet := ⟨∅⟩

instance : EmptyCollection Alphabet := ⟨empty⟩

instance : Inhabited Alphabet := ⟨∅⟩

/-- Two alphabets are equivalent when they have the same characters, in any order. -/
instance : HasEquiv Alphabet := ⟨fun a b ↦ a.chars ≈ b.chars⟩

instance (a b : Alphabet) : Decidable (a ≈ b) :=
  inferInstanceAs (Decidable (a.chars ≈ b.chars))

/-- Reads a list of characters, which must be distinct and without `ε`, after those known. -/
def declare (known : OrderedSet Char) : List Char → Except Error Alphabet
  | [] => .ok ⟨known⟩
  | c :: cs =>
    if c = epsilonChar then .error (.malformedAlphabet c)
    else if c ∈ known then .error (.duplicateSymbol c)
    else declare (known.insert c) cs

/-- The alphabet of a list of distinct characters other than `ε`. -/
def ofChars (cs : List Char) : Except Error Alphabet := declare ∅ cs

/-- The alphabet of the characters of a list. -/
def ofSet (s : OrderedSet Char) : Alphabet := ⟨s⟩

/-- Characters in the order of their declaration. -/
def toList (a : Alphabet) : List Char := a.chars.toList

/-- Number of characters. -/
def size (a : Alphabet) : Nat := a.chars.size

/-- Whether there is no character. -/
def isEmpty (a : Alphabet) : Bool := a.chars.isEmpty

/-- Whether a character is declared. -/
def contains (a : Alphabet) (c : Char) : Bool := a.chars.contains c

/-- Number of a character. -/
def idxOf? (a : Alphabet) (c : Char) : Option Nat := a.chars.idxOf? c

/-- Character with a given number. -/
def get? (a : Alphabet) (i : Nat) : Option Char := a.chars.get? i

/-- The same characters in increasing order. -/
def sorted (a : Alphabet) : Alphabet := ⟨⟨a.chars.sorted, a.chars.nodup_sorted⟩⟩

/-- The characters of `a`, then those of `b` that are new. -/
def union (a b : Alphabet) : Alphabet := ⟨a.chars ∪ b.chars⟩

instance : Union Alphabet := ⟨union⟩

/-- Text of an alphabet. -/
def render (a : Alphabet) : String := a.chars.render Char.toString

/-- The view by characters. -/
@[simp]
theorem mem_toList {a : Alphabet} {c : Char} : c ∈ a.toList ↔ c ∈ a := Iff.rfl

/-- Deciding membership as a Boolean agrees with membership. -/
@[simp]
theorem contains_iff {a : Alphabet} {c : Char} : a.contains c = true ↔ c ∈ a :=
  OrderedSet.contains_iff

/-- Sorting keeps the characters. -/
@[simp]
theorem mem_sorted {a : Alphabet} {c : Char} : c ∈ a.sorted ↔ c ∈ a :=
  OrderedSet.mem_sorted

/-- The characters of a union. -/
@[simp]
theorem mem_union {a b : Alphabet} {c : Char} : c ∈ a ∪ b ↔ c ∈ a ∨ c ∈ b :=
  OrderedSet.mem_union

end Alphabet

end LanguageTheory
