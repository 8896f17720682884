import Lookahead.Pattern.Piece

/-!
# The tree of a pattern

Pieces are put together from left to right. What is being read is a stack of open parentheses, each with the
alternatives that were finished and the row that is still growing. A quantifier takes the last part of the row, which
must be there, must be more than a place and must not be quantified already.
-/

namespace Lookahead.Pattern

/-- A regular expression as it is written: groups with names or without, references by name or by number. -/
abbrev Node := Regex (Option String) Reference

/-- What a quantifier makes of a part of a row. -/
inductive Role where
  /-- It may be quantified. -/
  | free
  /-- It is a place. -/
  | place
  /-- It is quantified already. -/
  | quantified
  deriving DecidableEq, Repr

/-- A part of a row. -/
structure Part where
  node : Node
  role : Role

/-- What stands between two parentheses, as far as it was read, the latest first. -/
structure Frame where
  finished : List Node := []
  row : List Part := []

namespace Frame

/-- The parts of the row one after the other. -/
def rowNode (f : Frame) : Node := f.row.foldl (fun tail p => .seq p.node tail) .empty

/-- The alternatives, the growing row being the last. -/
def node (f : Frame) : Node := f.finished.foldl (fun tail n => .alt n tail) f.rowNode

/-- The row with one more part. -/
def push (f : Frame) (node : Node) (role : Role := .free) : Frame := { f with row := ⟨node, role⟩ :: f.row }

/-- The row is done and another alternative begins. -/
def bar (f : Frame) : Frame := ⟨f.rowNode :: f.finished, []⟩

/-- Quantifies the last part of the row. -/
def times (f : Frame) (c : Count) : Except Fault Frame :=
  match f.row with
  | ⟨node, .free⟩ :: row => .ok { f with row := ⟨.rep node c.min c.max c.greedy, .quantified⟩ :: row }
  | ⟨_, .quantified⟩ :: _ => .error .multipleRepeat
  | _ => .error .nothingToRepeat

end Frame

/-- What the parentheses make of what stands between them. -/
def Bracket.close : Bracket → Node → Node
  | capture name, n => .group name n
  | plain, n => n
  | look positive, n => .look positive n

/-- The innermost frame and the parentheses around it, each with the frame it stands in. -/
structure Stack where
  top : Frame := {}
  below : List (Bracket × Frame) := []

namespace Stack

/-- Takes one more piece. -/
def push (s : Stack) : Piece → Except Fault Stack
  | .opening b => .ok ⟨{}, (b, s.top) :: s.below⟩
  | .closing =>
    match s.below with
    | [] => .error .unbalanced
    | (b, f) :: below => .ok ⟨f.push (b.close s.top.node), below⟩
  | .bar => .ok { s with top := s.top.bar }
  | .times c => (s.top.times c).map fun f => { s with top := f }
  | .anchor a => .ok { s with top := s.top.push (.anchor a) .place }
  | .one set => .ok { s with top := s.top.push (.one set) }
  | .back target ignoreCase => .ok { s with top := s.top.push (.back target ignoreCase) }

/-- The tree, if every parenthesis is closed. -/
def node (s : Stack) : Except Fault Node :=
  match s.below with
  | [] => .ok s.top.node
  | _ => .error .unbalanced

end Stack

/-- The tree that some pieces make up. -/
def Node.ofPieces (ps : List Piece) : Except Fault Node := do
  let s ← ps.foldlM Stack.push {}
  s.node

end Lookahead.Pattern
