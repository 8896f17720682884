import Lookahead.Match

/-!
# Feeds

A feed is what raw items are pulled from, one at a time. What the pulls of a feed give, in order, is fixed from the
start (`Feed.outcome`); the feed remembers how many of them were made. So a feed that has no end is a feed like any
other, and nothing can depend on a pull that was not made.
-/

namespace Lookahead

/-- What a feed answers when it is asked for an item. -/
inductive Pull where
  | item (raw : Raw)
  | fail (f : Failure)
  | stop
  deriving Repr

/-- A source of raw items, and how many pulls were made. -/
structure Feed where
  outcome : Nat → Pull
  taken : Nat := 0

namespace Feed

/-- One pull. -/
def next (f : Feed) : Pull × Feed := (f.outcome f.taken, { f with taken := f.taken + 1 })

/-- A feed that gives the listed outcomes and then ends. -/
def ofList (ps : List Pull) : Feed :=
  let all := ps.toArray
  ⟨fun k => all.getD k .stop, 0⟩

/-- The outcomes up to the first failure. -/
def closing : List Pull → List Pull
  | [] => []
  | .fail f :: _ => [.fail f]
  | p :: ps => p :: closing ps

@[simp] theorem next_fst (f : Feed) : f.next.1 = f.outcome f.taken := rfl

@[simp] theorem next_snd_taken (f : Feed) : f.next.2.taken = f.taken + 1 := rfl

@[simp] theorem next_snd_outcome (f : Feed) : f.next.2.outcome = f.outcome := rfl

theorem outcome_ofList (ps : List Pull) (k : Nat) : (ofList ps).outcome k = (ps[k]?).getD .stop := by
  simp [ofList, Array.getD_eq_getD_getElem?]

end Feed

end Lookahead
