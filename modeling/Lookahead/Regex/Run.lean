import Lookahead.Regex.Basic

/-!
# Matching

`run text r` tries the ways in which `r` can match from a place, in order of preference, and hands each place that is
reached to a continuation; the first one that the continuation accepts wins. What a group noted on a way that was given
up is forgotten, because every way carries its own notes.

An iteration beyond the required ones is not begun where the one before it began. So a repeat has no more of them than
there are places left, and the number of places left bounds the loop.
-/

namespace Lookahead

/-- A stretch of a text, by the position of its first character and the position after its last. -/
structure Span where
  start : Nat
  stop : Nat
  deriving DecidableEq, Repr

/-- The character at a position is a word character. -/
def Family.wordAt (text : Array Char) (ascii : Bool) (i : Nat) : Bool :=
  match text[i]? with
  | some c => Family.word.has ascii c
  | none => false

/-- The position meets the condition. -/
def Anchor.holds (text : Array Char) (pos : Nat) : Anchor → Bool
  | .start => pos == 0
  | .lineStart => pos == 0 || text[pos - 1]? == some '\n'
  | .finish => pos == text.size
  | .lastLine => pos == text.size || (pos + 1 == text.size && text[pos]? == some '\n')
  | .lineFinish => pos == text.size || text[pos]? == some '\n'
  | .wordEdge ascii inside =>
    !text.isEmpty && ((0 < pos && Family.wordAt text ascii (pos - 1)) != Family.wordAt text ascii pos) != inside

namespace Regex

/-- A place reached in an attempt, with the groups that were closed on the way, the latest first. -/
structure Spot where
  pos : Nat
  closed : List (Nat × Span)
  deriving DecidableEq, Repr

/-- What is tried from a place, with what is to follow. -/
abbrev Attempt := Spot → (Spot → Option Spot) → Option Spot

/-- The characters of two positions agree, perhaps but for case in the ASCII range. -/
def agree (text : Array Char) (ignoreCase : Bool) (i j : Nat) : Bool :=
  match text[i]?, text[j]? with
  | some c, some d => c == d || (ignoreCase && c.toLower == d.toLower)
  | _, _ => false

/-- The text of a stretch stands again at a position. -/
def repeated (text : Array Char) (ignoreCase : Bool) (s : Span) (pos : Nat) : Bool :=
  (List.range (s.stop - s.start)).all fun i => agree text ignoreCase (s.start + i) (pos + i)

/-- Exactly `n` times. -/
def exactly (step : Attempt) : Nat → Attempt
  | 0, s, k => k s
  | n + 1, s, k => step s fun t => exactly step n t k

/-- At most `n` times, rather more than fewer; `last` is where the iteration before began. -/
def upToMost (step : Attempt) : Nat → Option Nat → Attempt
  | 0, _, s, k => k s
  | n + 1, last, s, k =>
    if last = some s.pos then k s
    else (step s fun t => upToMost step n (some s.pos) t k).or (k s)

/-- At most `n` times, rather fewer than more; `last` is where the iteration before began. -/
def upToLeast (step : Attempt) : Nat → Option Nat → Attempt
  | 0, _, s, k => k s
  | n + 1, last, s, k =>
    (k s).or (if last = some s.pos then none else step s fun t => upToLeast step n (some s.pos) t k)

/-- How many iterations beyond the required ones there can be from a position. -/
def spare (text : Array Char) (min : Nat) (max : Option Nat) (pos : Nat) : Nat :=
  let places := text.size + 1 - pos
  match max with
  | none => places
  | some m => Nat.min (m - min) places

/-- The first way to match from a place that the continuation accepts. -/
def run (text : Array Char) : Regex Nat Nat → Attempt
  | empty, s, k => k s
  | one set, s, k =>
    match text[s.pos]? with
    | some c => if set.has c then k { s with pos := s.pos + 1 } else none
    | none => none
  | anchor a, s, k => if a.holds text s.pos then k s else none
  | seq a b, s, k => run text a s fun t => run text b t k
  | alt a b, s, k => (run text a s k).or (run text b s k)
  | group g a, s, k => run text a s fun t => k { t with closed := (g, ⟨s.pos, t.pos⟩) :: t.closed }
  | look true a, s, k =>
    match run text a s some with
    | some t => k { t with pos := s.pos }
    | none => none
  | look false a, s, k =>
    match run text a s some with
    | some _ => none
    | none => k s
  | back g ignoreCase, s, k =>
    match s.closed.lookup g with
    | some w =>
      if repeated text ignoreCase w s.pos then k { s with pos := s.pos + (w.stop - w.start) } else none
    | none => none
  | rep a min max greedy, s, k =>
    exactly (run text a) min s fun t =>
      if greedy then upToMost (run text a) (spare text min max t.pos) none t k
      else upToLeast (run text a) (spare text min max t.pos) none t k

section Equations

variable (text : Array Char) (s : Spot) (k : Spot → Option Spot)

theorem run_alt (a b : Regex Nat Nat) : run text (.alt a b) s k = (run text a s k).or (run text b s k) := rfl

theorem run_group (g : Nat) (a : Regex Nat Nat) :
    run text (.group g a) s k =
      run text a s fun t => k { t with closed := (g, ⟨s.pos, t.pos⟩) :: t.closed } := rfl

end Equations

end Regex

end Lookahead
