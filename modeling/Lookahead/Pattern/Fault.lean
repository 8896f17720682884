/-!
# Faults of patterns

Why a pattern cannot be read.
-/

namespace Lookahead

namespace Pattern

/-- Why a pattern cannot be read. -/
inductive Fault where
  | unbalanced
  | nothingToRepeat
  | multipleRepeat
  | minAboveMax
  | unterminatedSet
  | badRange
  | badEscape
  | badGroupName
  | duplicateName
  | unknownGroup
  | openGroup
  | unknownExtension
  deriving DecidableEq, Repr

/-- The fault in words. -/
def Fault.message : Fault → String
  | unbalanced => "missing or unbalanced parenthesis"
  | nothingToRepeat => "nothing to repeat"
  | multipleRepeat => "multiple repeat"
  | minAboveMax => "min repeat greater than max repeat"
  | unterminatedSet => "unterminated character set"
  | badRange => "bad character range"
  | badEscape => "bad escape"
  | badGroupName => "bad group name"
  | duplicateName => "redefinition of a group name"
  | unknownGroup => "unknown group"
  | openGroup => "cannot refer to an open group"
  | unknownExtension => "unknown extension"

end Pattern

end Lookahead
