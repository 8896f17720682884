import Lookahead.Text.Category

/-!
# Regular expressions

The tree of a regular expression, over the names that its groups carry (`γ`) and the names by which it refers back to
them (`ρ`). Sets of characters and places between characters are given with every option of the pattern already
resolved, so that an expression has its meaning by itself.

Looks are looks ahead. There are no looks behind, no choice by whether a group took part, and nothing that is not tried
again once it matched (atomic groups, possessive quantifiers). What holds of any search, whatever it understands by a
pattern, is said of its matches (`Match`).
-/

namespace Lookahead

/-- A family of characters that has a name. -/
inductive Family where
  | digit
  | word
  | blank
  deriving DecidableEq, Repr

namespace Family

/-- A word character of the ASCII range. -/
def asciiWord (c : Char) : Bool := c.isAlphanum || c == '_'

/-- A blank of the ASCII range. -/
def asciiBlank (c : Char) : Bool := c == ' ' || (0x09 ≤ c.toNat && c.toNat ≤ 0x0D)

/-- Membership, among all characters or among those of the ASCII range only. -/
def has (ascii : Bool) (c : Char) : Family → Bool
  | digit => if ascii then c.isDigit else Text.isDigit c
  | word => if ascii then asciiWord c else Text.isWord c
  | blank => if ascii then asciiBlank c else Text.isBlank c

end Family

/-- What a set of characters is made of: ranges, and families or their complements. -/
inductive CharSet.Item where
  | range (lo hi : Char)
  | family (f : Family) (ascii negated : Bool)
  deriving DecidableEq, Repr

/-- A set of characters: the union of its items or, if negated, everything else. -/
structure CharSet where
  items : List CharSet.Item
  negated : Bool := false
  ignoreCase : Bool := false
  deriving DecidableEq, Repr

namespace CharSet

/-- The character belongs to the item. -/
def Item.has (c : Char) : Item → Bool
  | range lo hi => lo ≤ c && c ≤ hi
  | family f ascii negated => f.has ascii c != negated

/-- The characters that belong to the set. If case is ignored, a letter of the ASCII range belongs to the items with
its other case; all other letters keep their case. -/
def has (s : CharSet) (c : Char) : Bool :=
  let found := fun d : Char => s.items.any (Item.has d)
  (found c || (s.ignoreCase && (found c.toLower || found c.toUpper))) != s.negated

/-- The set of one character. -/
def single (c : Char) (ignoreCase : Bool := false) : CharSet := ⟨[.range c c], false, ignoreCase⟩

/-- All characters. -/
def any : CharSet := ⟨[], true, false⟩

/-- All characters but the end of a line. -/
def anyInLine : CharSet := ⟨[.range '\n' '\n'], true, false⟩

end CharSet

/-- A condition on a place between two characters. -/
inductive Anchor where
  /-- The start of the text. -/
  | start
  /-- The start of a line. -/
  | lineStart
  /-- The end of the text. -/
  | finish
  /-- The end of the text, or the place before a line end that closes it. -/
  | lastLine
  /-- The end of a line. -/
  | lineFinish
  /-- A place between a word character and something else; `inside` asks for the contrary. -/
  | wordEdge (ascii inside : Bool)
  deriving DecidableEq, Repr

/-- A regular expression. -/
inductive Regex (γ ρ : Type) where
  /-- The empty text. -/
  | empty
  /-- One character of a set. -/
  | one (set : CharSet)
  /-- A place that meets a condition. -/
  | anchor (a : Anchor)
  /-- One after the other. -/
  | seq (first second : Regex γ ρ)
  /-- One or, failing that, the other. -/
  | alt (first second : Regex γ ρ)
  /-- A group, which notes what it matched. -/
  | group (name : γ) (body : Regex γ ρ)
  /-- What follows matches or, if not `positive`, does not match; nothing is consumed. -/
  | look (positive : Bool) (body : Regex γ ρ)
  /-- The text that a group matched last, once more. -/
  | back (target : ρ) (ignoreCase : Bool)
  /-- At least `min` times and at most `max` times, as often as possible if `greedy`, else as seldom. -/
  | rep (body : Regex γ ρ) (min : Nat) (max : Option Nat) (greedy : Bool)
  deriving DecidableEq, Repr

end Lookahead
