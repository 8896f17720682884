import Lookahead.Feed.Basic
import Lookahead.Event

/-!
# Intakes

An intake pulls raw items from a feed, makes tokens of them and lets a filter judge them, until a token is kept or the
feed ends. Once it has ended, it never asks the feed again and hands out the token at the end of the text.

A filter may reject everything that an endless feed gives. So the number of tokens rejected in a row is limited by a
patience; to have lost patience is a result of its own, and no failure.
-/

namespace Lookahead

/-- Why an operation gave no result. -/
inductive Halt where
  | failed (f : Failure)
  | impatient
  deriving DecidableEq, Repr

/-- Which filter is in force: the one that several lexers have in common, or one of its own. -/
inductive Active (φ : Type) where
  | common
  | own (filter : Option φ)
  deriving Repr

/-- The state of pulling tokens from a feed. Events are recorded, the latest first. -/
structure Intake (φ : Type) where
  source : Source
  feed : Feed
  common : Option φ := none
  active : Active φ := .common
  exhausted : Bool := false
  record : List (Event φ) := []

namespace Intake

variable {φ : Type}

/-- The token at the end of the text. -/
def eof (i : Intake φ) : Token := .eof i.source

/-- Records an event. -/
def note (i : Intake φ) (e : Event φ) : Intake φ := { i with record := e :: i.record }

/-- The filter in force, if there is one. -/
def filter (i : Intake φ) : Option φ :=
  match i.active with
  | .common => i.common
  | .own f => f

/-- Puts another state of the filter in force in its place. -/
def putFilter (i : Intake φ) (f : φ) : Intake φ :=
  match i.active with
  | .common => { i with common := some f }
  | .own _ => { i with active := .own (some f) }

/-- Installs a filter of its own. -/
def install (i : Intake φ) (f : Option φ) : Intake φ := { i with active := .own f }

variable [Judge φ]

/-- The verdict on a token. Without a filter every token is kept, and no question is asked. -/
def judge (i : Intake φ) (view : Option View) (t : Token) : Except Failure Bool × Intake φ :=
  match i.filter with
  | none => (.ok true, i)
  | some f =>
    let (verdict, g) := Judge.judge f view t
    (verdict, (i.putFilter g).note (.judged f t verdict))

/-- What becomes of an item. -/
def settle (i : Intake φ) (view : Option View) : Pull → Fate × Intake φ
  | .stop => (.ended, i)
  | .fail f => (.lost f, i)
  | .item raw =>
    match raw.convert (some i.source) with
    | .error f => (.lost f, i)
    | .ok none => (.ended, i)
    | .ok (some t) =>
      match i.judge view t with
      | (.error f, i) => (.lost f, i)
      | (.ok true, i) => (.kept t, i)
      | (.ok false, i) => (.rejected t, i)

/-- Marks the end of the feed. -/
def finish (i : Intake φ) : Intake φ := { i with exhausted := true }.note (.reachedEnd i.source.size)

/-- One pull, with everything that comes of it. -/
def draw (i : Intake φ) (view : Option View) : Fate × Intake φ :=
  let (pull, feed) := i.feed.next
  let (fate, j) := { i with feed }.settle view pull
  let j := j.note (.pulled i.feed.taken fate)
  match fate with
  | .ended => (.ended, j.finish)
  | fate => (fate, j)

/-- The next token that is kept, or the token at the end. -/
def next (view : Option View) : Nat → Intake φ → Except Halt Token × Intake φ
  | patience, i =>
    if i.exhausted then (.ok i.eof, i)
    else match patience with
      | 0 => (.error .impatient, i)
      | patience + 1 =>
        match i.draw view with
        | (.ended, i) => (.ok i.eof, i)
        | (.lost f, i) => (.error (.failed f), i)
        | (.kept t, i) => (.ok t, i)
        | (.rejected _, i) => next view patience i

/-- An exhausted intake gives the token at the end and does nothing. -/
theorem next_of_exhausted {i : Intake φ} (h : i.exhausted = true) (view : Option View) (patience : Nat) :
    i.next view patience = (.ok i.eof, i) := by
  unfold next
  simp [h]

end Intake

end Lookahead
