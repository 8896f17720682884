import Lookahead.Mismatch
import Lookahead.Pattern.Fault

/-!
# Failures

Why an operation stopped, by cause. The wording of each cause is in `Failure.message`.
-/

namespace Lookahead

/-- Why an operation stopped. -/
inductive Failure where
  /-- A token cannot start before the text does. -/
  | negativeIndex (index : Int)
  /-- No named group took part in a match. -/
  | anonymousMatch (text : String) (start : Nat)
  /-- A pattern that should name the groups of its tokens names none. -/
  | anonymousPattern (pattern : String)
  /-- A stream gave something that is neither a token nor a match. -/
  | unsupported (kind : String)
  /-- A value was asked for without a group. -/
  | valueWithoutGroup
  /-- A pattern cannot be read. -/
  | badPattern (fault : Pattern.Fault)
  /-- An expectation was not met. -/
  | mismatch (report : Mismatch)
  /-- A handler passed an unmet expectation on under a note of its own. -/
  | annotated (note : String) (report : Mismatch)
  /-- A stream, a filter or a handler failed for reasons of its own. -/
  | raised (reason : String)
  deriving DecidableEq, Repr

/-- The wording of a failure. -/
def Failure.message : Failure → String
  | negativeIndex index => "Token index must be >= 0, got " ++ toString index
  | anonymousMatch text start => "Match " ++ Text.quote text ++ " at " ++ toString start ++ " has no named group"
  | anonymousPattern pattern => "Pattern " ++ Text.quote pattern ++ " defines no named groups"
  | unsupported kind => "Cannot convert " ++ kind ++ " to a token"
  | valueWithoutGroup => "peek() got a value without a group"
  | badPattern fault => fault.message
  | mismatch report => report.message
  | annotated note report => note ++ ": " ++ report.message
  | raised reason => reason

/-- A token at a position that is still to be checked. -/
def Token.make (group value : String) (index : Int) (source : Option Source := none) : Except Failure Token :=
  if index < 0 then .error (.negativeIndex index) else .ok ⟨group, value, index.toNat, source⟩

end Lookahead
