import Lookahead.Pattern.Node

/-!
# Numbering the groups

Groups are numbered from zero in the order in which they open. A reference must name a group that was opened before it
and is closed by then; a name may be given once.
-/

namespace Lookahead.Pattern

/-- The names of the groups that were opened so far, in order, and the numbers of those that are still open. -/
structure Numbering where
  names : List (Option String) := []
  inside : List Nat := []
  deriving DecidableEq, Repr

namespace Numbering

/-- The number of a group that may be referred to. -/
def resolve (n : Numbering) (r : Reference) : Except Fault Nat :=
  let found := match r with
    | .name name => n.names.idxOf? (some name)
    | .number number => if 0 < number ∧ number ≤ n.names.length then some (number - 1) else none
  match found with
  | none => .error .unknownGroup
  | some k => if k ∈ n.inside then .error .openGroup else .ok k

/-- Opens a group. -/
def enter (n : Numbering) (name : Option String) : Except Fault Numbering :=
  if name.isSome ∧ name ∈ n.names then .error .duplicateName
  else .ok ⟨n.names ++ [name], n.names.length :: n.inside⟩

/-- Closes the group that was opened last. -/
def leave (n : Numbering) : Numbering := { n with inside := n.inside.tail }

end Numbering

/-- The tree with numbers for groups, and the numbering after it. -/
def Node.number : Node → Numbering → Except Fault (Regex Nat Nat × Numbering)
  | .empty, n => .ok (.empty, n)
  | .one set, n => .ok (.one set, n)
  | .anchor a, n => .ok (.anchor a, n)
  | .seq a b, n => do
    let (a', n) ← Node.number a n
    let (b', n) ← Node.number b n
    .ok (.seq a' b', n)
  | .alt a b, n => do
    let (a', n) ← Node.number a n
    let (b', n) ← Node.number b n
    .ok (.alt a' b', n)
  | .group name a, n => do
    let (a', n') ← Node.number a (← n.enter name)
    .ok (.group n.names.length a', n'.leave)
  | .look positive a, n => do
    let (a', n) ← Node.number a n
    .ok (.look positive a', n)
  | .back target ignoreCase, n => do
    let k ← n.resolve target
    .ok (.back k ignoreCase, n)
  | .rep a min max greedy, n => do
    let (a', n) ← Node.number a n
    .ok (.rep a' min max greedy, n)

end Lookahead.Pattern
