import Lookahead.Tokenizer

/-!
# Scripts

Feeds that follow a list of items, whatever the input is.
-/

namespace Lookahead

/-- An item that a script asks for. -/
inductive Item where
  | nothing
  | token (group value : String) (index : Int) (source : Option Source)
  | foreign (kind : String)
  | raise (reason : String)
  | search (pattern text : String)
  deriving Repr

/-- The raw item, if it can be made. -/
def Item.produce : Item → Except Failure Raw
  | nothing => .ok .nothing
  | token group value index source => (Token.make group value index source).map .token
  | foreign kind => .ok (.foreign kind)
  | raise reason => .error (.raised reason)
  | search pattern text => do
    let p ← (Pattern.compile pattern).mapError .badPattern
    match p.search text with
    | some m => .ok (.matched m)
    | none => .ok .nothing

/-- The outcome of the pull that asks for an item. -/
def Item.pull (i : Item) : Pull :=
  match i.produce with
  | .ok raw => .item raw
  | .error f => .fail f

/-- When the items of a script are made, and what a failure does to those that follow. -/
inductive Script.Mode where
  /-- One by one; a failure ends the feed. -/
  | closing
  /-- One by one; the feed goes on after a failure. -/
  | resuming
  /-- All at the start; a failure there leaves no feed. -/
  | eager
  deriving DecidableEq, Repr

/-- A list of items to be given whatever the input is. -/
structure Script where
  items : List Item
  mode : Script.Mode := .closing
  deriving Repr

/-- The feed that follows a script. -/
def Script.feed (s : Script) : Except Failure Feed :=
  match s.mode with
  | .closing => .ok (.ofList (Feed.closing (s.items.map Item.pull)))
  | .resuming => .ok (.ofList (s.items.map Item.pull))
  | .eager => (s.items.mapM Item.produce).map fun raws => .ofList (raws.map .item)

/-- A tokenizer that follows a script. -/
def Tokenizer.ofScript (s : Script) : Tokenizer := fun _ => s.feed

end Lookahead
