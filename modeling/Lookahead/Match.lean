import Lookahead.Regex.Run
import Lookahead.Failure

/-!
# Matches and their tokens

A match knows the names of the groups of its pattern in order of opening, and which groups were closed on the way, the
latest first. It becomes a token of the group that was closed last, if that group has a name, and else of the first
named group that took part; without any there is no token.
-/

namespace Lookahead

/-- A successful match of a pattern in a text. -/
structure Match where
  text : Array Char
  span : Span
  names : List (Option String)
  closed : List (Nat × Span)
  deriving Repr

namespace Match

/-- The text of a stretch. -/
def slice (m : Match) (s : Span) : String := String.ofList (m.text.extract s.start s.stop).toList

/-- The whole text of the match. -/
def whole (m : Match) : String := m.slice m.span

/-- The name of a group, if it has one. -/
def name? (m : Match) (k : Nat) : Option String := (m.names[k]?).join

/-- The stretch of a group, if it took part: what it matched last. -/
def span? (m : Match) (k : Nat) : Option Span := m.closed.lookup k

/-- The group that was closed last, if it has a name, and its stretch. -/
def lastNamed (m : Match) : Option (String × Span) :=
  m.closed.head?.bind fun (k, s) => (m.name? k).map (·, s)

/-- The named groups that took part, in order of opening, each with its stretch. -/
def participants (m : Match) : List (String × Span) :=
  (List.range m.names.length).filterMap fun k => do
    let name ← m.name? k
    let s ← m.span? k
    return (name, s)

/-- The group that a match is classified by, and its stretch. -/
def classify (m : Match) : Option (String × Span) := m.lastNamed.or m.participants.head?

/-- The token of a match. -/
def token (m : Match) (source : Option Source) : Except Failure Token :=
  match m.classify with
  | some (group, s) => .ok ⟨group, m.slice s, s.start, source⟩
  | none => .error (.anonymousMatch m.whole m.span.start)

end Match

/-- What a stream may give. -/
inductive Raw where
  | nothing
  | token (t : Token)
  | matched (m : Match)
  | foreign (kind : String)
  deriving Repr

/-- The token of a raw item, if there is one. A token keeps its source and gets the given one only if it has none. -/
def Raw.convert (source : Option Source) : Raw → Except Failure (Option Token)
  | nothing => .ok none
  | token t => .ok (some (t.attach source))
  | matched m => (m.token source).map some
  | foreign kind => .error (.unsupported kind)

end Lookahead
