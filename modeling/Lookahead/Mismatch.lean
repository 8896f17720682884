import Lookahead.Token

/-!
# Unmet expectations

A reader asked for a group, perhaps with a value, and met another token. The report has four lines; the texts stand in
it as they are, without escapes.
-/

namespace Lookahead

/-- The token that was met, and the group and value that were asked for. -/
structure Mismatch where
  token : Token
  group : String
  value : Option String := none
  deriving DecidableEq, Repr

namespace Mismatch

/-- What was asked for: the group and, between double quotes, the value. -/
def expected (m : Mismatch) : String :=
  match m.value with
  | none => m.group
  | some v => m.group ++ " \"" ++ v ++ "\""

/-- The report, line by line. -/
def lines (m : Mismatch) : List String := [
  "Unexpected token: " ++ m.token.value,
  "        expected: " ++ m.expected,
  "    but received: " ++ m.token.group ++ " \"" ++ m.token.value ++ "\"",
  "     at position: " ++ toString m.token.index]

/-- The report as one text. -/
def message (m : Mismatch) : String := "\n".intercalate m.lines

end Mismatch

end Lookahead
