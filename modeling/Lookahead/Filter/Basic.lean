import Lookahead.Failure

/-!
# Filters

A filter is asked about tokens one after the other. It answers whether to keep the token, or fails, and may change
from one question to the next; it may also look at the lexer it works for, but it does not operate it. Any type with
such a behaviour will do (`Judge`).
-/

namespace Lookahead

/-- What a filter may see of the lexer it works for. -/
structure View where
  current : Token
  previous : Option Token
  deriving DecidableEq, Repr

/-- The behaviour of filters. -/
class Judge (φ : Type) where
  /-- How a filter is called in messages. -/
  label : φ → String
  /-- The verdict on a token, and the filter after it. Nothing is seen of a lexer that is still being made. -/
  judge : φ → Option View → Token → Except Failure Bool × φ

/-- How a filter is called in messages, also if there is none. -/
def Judge.labelOf {φ : Type} [Judge φ] : Option φ → String
  | some f => Judge.label f
  | none => "<default>"

end Lookahead
