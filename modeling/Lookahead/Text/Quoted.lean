import Lookahead.Text.Category

/-!
# Quoted texts

`quote s` writes a text between quotes so that control characters and everything else that does not show can be read.
Single quotes are used unless the text holds one and no double quote. Each character is written by itself, so a quoted
text can be read back character by character. Which characters show is a matter of a table (`isPrintable`), and another
may be taken in its place (`quoteBy`).
-/

namespace Lookahead.Text

/-- The hexadecimal digit of a number below 16, in lower case. -/
def hexDigit (n : Nat) : Char := if n < 10 then Char.ofNat (0x30 + n) else Char.ofNat (0x57 + n)

/-- The last `width` hexadecimal digits of a number. -/
def hex : Nat → Nat → List Char
  | 0, _ => []
  | width + 1, n => hex width (n / 16) ++ [hexDigit (n % 16)]

theorem hex_length (width n : Nat) : (hex width n).length = width := by
  induction width generalizing n with
  | zero => rfl
  | succ width ih => simp [hex, ih]

/-- How one character is written between quotes `q`: the quote and the backslash after a backslash, tab and line ends
by letter, a character that shows as it is, any other by the shortest of three numeric forms. -/
def escapeBy (shows : Char → Bool) (q c : Char) : List Char :=
  if c = q ∨ c = '\\' then ['\\', c]
  else if c = '\t' then ['\\', 't']
  else if c = '\n' then ['\\', 'n']
  else if c = '\r' then ['\\', 'r']
  else if shows c then [c]
  else if c.toNat < 0x100 then '\\' :: 'x' :: hex 2 c.toNat
  else if c.toNat < 0x10000 then '\\' :: 'u' :: hex 4 c.toNat
  else '\\' :: 'U' :: hex 8 c.toNat

/-- The quote that surrounds a text. -/
def quoteMark (cs : List Char) : Char := if cs.contains '\'' && !cs.contains '"' then '"' else '\''

/-- A text between quotes, with escapes where they are needed; `shows` tells which characters show. -/
def quoteBy (shows : Char → Bool) (s : String) : String :=
  let q := quoteMark s.toList
  String.ofList (q :: (s.toList.flatMap (escapeBy shows q) ++ [q]))

/-- A text between quotes, with escapes for what is not printable. -/
def quote (s : String) : String := quoteBy isPrintable s

end Lookahead.Text
