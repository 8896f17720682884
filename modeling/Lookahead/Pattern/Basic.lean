import Lookahead.Pattern.Numbering
import Lookahead.Match

/-!
# Patterns

A pattern is compiled once and then searched for in texts. `Pattern.scan` finds all matches from left to right: at each
place the first way to match counts, the search goes on where the match ended, and right after an empty match only a
nonempty one may begin at the same place.
-/

namespace Lookahead

/-- A pattern: its text, its expression, and the names of its groups in order of opening. -/
structure Pattern where
  text : String
  regex : Regex Nat Nat
  names : List (Option String)
  deriving DecidableEq, Repr

namespace Pattern

/-- The pattern of a tree. -/
def ofNode (text : String) (node : Node) : Except Fault Pattern := do
  let (regex, numbering) ← Node.number node {}
  .ok ⟨text, regex, numbering.names⟩

/-- The pattern of a text. -/
def compile (text : String) (o : Options := {}) : Except Fault Pattern := do
  let pieces ← Piece.ofText o text.toList
  ofNode text (← Node.ofPieces pieces)

/-- Some group of the pattern has a name. -/
def namesGroups (p : Pattern) : Bool := p.names.any Option.isSome

/-- The first way to match at a position, which must not be empty if `fresh` does not hold. -/
def matchAt (p : Pattern) (input : Array Char) (fresh : Bool) (pos : Nat) : Option Match :=
  let accept := fun s : Regex.Spot => if fresh || s.pos != pos then some s else none
  (Regex.run input p.regex ⟨pos, []⟩ accept).map fun s => ⟨input, ⟨pos, s.pos⟩, p.names, s.closed⟩

/-- The first match at one of `count` positions from `pos` on. -/
def searchFrom (p : Pattern) (input : Array Char) : Nat → Nat → Option Match
  | 0, _ => none
  | count + 1, pos => (p.matchAt input true pos).or (searchFrom p input count (pos + 1))

/-- The first match in a text. -/
def search (p : Pattern) (input : String) : Option Match :=
  let cs := input.toList.toArray
  p.searchFrom cs (cs.size + 1) 0

/-- The matches at one position: the first way to match and, after an empty one, the first that is not empty. -/
def matchesAt (p : Pattern) (input : Array Char) (pos : Nat) : List Match :=
  match p.matchAt input true pos with
  | none => []
  | some m => if m.span.stop = pos then m :: (p.matchAt input false pos).toList else [m]

/-- The matches that begin at one of `count` positions from `pos` on, but not before `resume`. -/
def scanFrom (p : Pattern) (input : Array Char) : Nat → Nat → Nat → List Match
  | 0, _, _ => []
  | count + 1, pos, resume =>
    let found := if pos < resume then [] else p.matchesAt input pos
    let resume := match found.getLast? with
      | some m => m.span.stop
      | none => resume
    found ++ scanFrom p input count (pos + 1) resume

/-- All matches in a text, from left to right. -/
def scan (p : Pattern) (input : String) : List Match :=
  let cs := input.toList.toArray
  p.scanFrom cs (cs.size + 1) 0 0

end Pattern

end Lookahead
