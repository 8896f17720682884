/-!
# Categories of characters

A character is a letter, a decimal digit, another number sign, a combining mark, a blank, hidden, or a plain symbol.
The categories decide what counts as a word character, what may stand in an identifier and what is written as it is.

The table is exact up to `U+02FF` (Latin) and on the further blocks it lists: combining marks, Cyrillic, Arabic
digits, spaces and formatting characters, Japanese, Chinese and Korean letters, private use. A character outside these
blocks counts as a symbol.
-/

namespace Lookahead

/-- What kind of character a character is. -/
inductive Category where
  | letter
  | digit
  | number
  | mark
  | symbol
  | blank
  | hidden
  deriving DecidableEq, Repr

/-- Code points `first`, …, `last`, all of one category. -/
structure Category.Block where
  first : Nat
  last : Nat
  category : Category

namespace Category

/-- The blocks that are not symbols, in order of code points. -/
def blocks : List Block := [
  ⟨0x00, 0x08, hidden⟩, ⟨0x09, 0x0D, blank⟩, ⟨0x0E, 0x1B, hidden⟩, ⟨0x1C, 0x20, blank⟩,
  ⟨0x30, 0x39, digit⟩, ⟨0x41, 0x5A, letter⟩, ⟨0x61, 0x7A, letter⟩,
  ⟨0x7F, 0x84, hidden⟩, ⟨0x85, 0x85, blank⟩, ⟨0x86, 0x9F, hidden⟩, ⟨0xA0, 0xA0, blank⟩,
  ⟨0xAA, 0xAA, letter⟩, ⟨0xAD, 0xAD, hidden⟩, ⟨0xB2, 0xB3, number⟩, ⟨0xB5, 0xB5, letter⟩,
  ⟨0xB9, 0xB9, number⟩, ⟨0xBA, 0xBA, letter⟩, ⟨0xBC, 0xBE, number⟩,
  ⟨0xC0, 0xD6, letter⟩, ⟨0xD8, 0xF6, letter⟩, ⟨0xF8, 0x2C1, letter⟩,
  ⟨0x2C6, 0x2D1, letter⟩, ⟨0x2E0, 0x2E4, letter⟩, ⟨0x2EC, 0x2EC, letter⟩, ⟨0x2EE, 0x2EE, letter⟩,
  ⟨0x300, 0x36F, mark⟩,
  ⟨0x400, 0x481, letter⟩, ⟨0x483, 0x487, mark⟩, ⟨0x48A, 0x52F, letter⟩,
  ⟨0x660, 0x669, digit⟩, ⟨0x6F0, 0x6F9, digit⟩,
  ⟨0x1680, 0x1680, blank⟩, ⟨0x2000, 0x200A, blank⟩, ⟨0x200B, 0x200F, hidden⟩,
  ⟨0x2028, 0x2029, blank⟩, ⟨0x202A, 0x202E, hidden⟩, ⟨0x202F, 0x202F, blank⟩,
  ⟨0x205F, 0x205F, blank⟩, ⟨0x2060, 0x206F, hidden⟩, ⟨0x3000, 0x3000, blank⟩,
  ⟨0x3005, 0x3006, letter⟩, ⟨0x3041, 0x3096, letter⟩, ⟨0x309D, 0x309F, letter⟩, ⟨0x30A1, 0x30FA, letter⟩,
  ⟨0x30FC, 0x30FF, letter⟩, ⟨0x3400, 0x4DBF, letter⟩,
  ⟨0x4E00, 0x9FFF, letter⟩, ⟨0xAC00, 0xD7A3, letter⟩,
  ⟨0xE000, 0xF8FF, hidden⟩, ⟨0xFEFF, 0xFEFF, hidden⟩, ⟨0xFFFE, 0xFFFF, hidden⟩,
  ⟨0x20000, 0x2A6DF, letter⟩, ⟨0xF0000, 0x10FFFF, hidden⟩]

/-- The category of a character. -/
def of (c : Char) : Category :=
  match blocks.find? (fun b => decide (b.first ≤ c.toNat) && decide (c.toNat ≤ b.last)) with
  | some b => b.category
  | none => symbol

end Category

namespace Text

/-- Space of any script. -/
def isBlank (c : Char) : Bool := Category.of c == .blank

/-- A decimal digit of any script. -/
def isDigit (c : Char) : Bool := Category.of c == .digit

/-- A letter, a digit or number sign of any script, or the underscore. -/
def isWord (c : Char) : Bool :=
  c == '_' || (match Category.of c with
    | .letter | .digit | .number => true
    | _ => false)

/-- Written as it is in a quoted text: everything that shows, and the ordinary space. -/
def isPrintable (c : Char) : Bool :=
  c == ' ' || (match Category.of c with
    | .blank | .hidden => false
    | _ => true)

/-- May open an identifier. -/
def isIdentifierStart (c : Char) : Bool := c == '_' || Category.of c == .letter

/-- May stand in an identifier after its first character. -/
def isIdentifierPart (c : Char) : Bool :=
  c == '_' || (match Category.of c with
    | .letter | .digit | .mark => true
    | _ => false)

/-- A nonempty text that opens as an identifier may and goes on as one may. -/
def isIdentifier : List Char → Bool
  | [] => false
  | c :: rest => isIdentifierStart c && rest.all isIdentifierPart

/-- What opens an identifier may also stand further on in it. -/
theorem isIdentifierPart_of_start {c : Char} (h : isIdentifierStart c = true) : isIdentifierPart c = true := by
  simp only [isIdentifierStart, isIdentifierPart, Bool.or_eq_true, beq_iff_eq] at h ⊢
  rcases h with h | h
  · exact .inl h
  · exact .inr (by simp [h])

end Text

end Lookahead
