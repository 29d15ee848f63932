/-!
# Symbols

A transition reads a `Symbol`: one character, or nothing at all. In text, nothing is written with
the character `ε`, so text that names a symbol cannot name that character. An expression that has
it as a literal still reads it: its symbol is `char epsilonChar`, which is not `epsilon`.

Spec guidance: `SPEC_FULL.md` §3.
-/

namespace LanguageTheory

/-- The character that stands for the empty word in text. -/
def epsilonChar : Char := 'ε'

/-- What a transition reads. -/
inductive Symbol where
  /-- Nothing. -/
  | epsilon
  /-- One character. -/
  | char (c : Char)
  deriving DecidableEq, Repr

namespace Symbol

/-- The symbol that is written with a character. -/
def ofChar (c : Char) : Symbol := if c = epsilonChar then epsilon else char c

/-- Whether nothing is read. -/
def isEpsilon : Symbol → Bool
  | epsilon => true
  | char _ => false

/-- The character with which a symbol is written. -/
def toChar : Symbol → Char
  | epsilon => epsilonChar
  | char c => c

/-- Text of a symbol. -/
def render (s : Symbol) : String := s.toChar.toString

/-- Place of a symbol in the order of symbols: the empty word, then the characters. -/
def rank : Symbol → Nat
  | epsilon => 0
  | char c => c.toNat + 1

instance : LE Symbol := ⟨fun s t ↦ s.rank ≤ t.rank⟩

instance : DecidableLE Symbol := fun s t ↦ inferInstanceAs (Decidable (s.rank ≤ t.rank))

/-- Every symbol is read back from the character with which it is written, except for a symbol
that reads the character `ε`. -/
theorem ofChar_toChar {s : Symbol} (h : s ≠ char epsilonChar) : ofChar s.toChar = s := by
  cases s with
  | epsilon => rfl
  | char c =>
    have hc : c ≠ epsilonChar := fun e ↦ h (e ▸ rfl)
    simp [ofChar, toChar, hc]

end Symbol

end LanguageTheory
