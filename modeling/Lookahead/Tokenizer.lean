import Lookahead.Feed.Basic
import Lookahead.Pattern.Basic

/-!
# Tokenizers

A tokenizer makes a feed for an input. The usual one goes through the matches of a pattern whose named groups are the
groups of its tokens; text between the matches is skipped.
-/

namespace Lookahead

/-- Makes a feed for an input, or fails to. -/
abbrev Tokenizer := String → Except Failure Feed

/-- A pattern by its text, or one that was compiled before, with options of its own. -/
inductive Recipe where
  | text (text : String)
  | compiled (pattern : Pattern)

/-- The pattern, which has to name a group. The options are for a pattern that is still to be compiled. -/
def Recipe.pattern (r : Recipe) (o : Pattern.Options := {}) : Except Failure Pattern := do
  let p ← match r with
    | .text s => (Pattern.compile s o).mapError .badPattern
    | .compiled p => .ok p
  if p.namesGroups then .ok p else .error (.anonymousPattern p.text)

namespace Tokenizer

/-- The matches of a pattern. -/
def ofPattern (p : Pattern) : Tokenizer := fun input =>
  .ok (.ofList ((p.scan input).map fun m => .item (.matched m)))

/-- The matches of the pattern of a recipe. -/
def ofRecipe (r : Recipe) (o : Pattern.Options := {}) : Except Failure Tokenizer := (r.pattern o).map ofPattern

/-- A tick for each multiple of the length of the input, without end. -/
def ticks : Tokenizer := fun input =>
  let length := input.length
  .ok ⟨fun k => .item (.token ⟨"tick", input, k * length, none⟩), 0⟩

end Tokenizer

end Lookahead
