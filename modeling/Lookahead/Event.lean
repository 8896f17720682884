import Lookahead.Handler

/-!
# Events

What happens to a lexer is recorded as a list of events. Messages, counts and the reports that reached a handler are
read off that list.
-/

namespace Lookahead

/-- What became of a pulled item. -/
inductive Fate where
  /-- It was the end, or told that there is nothing more. -/
  | ended
  /-- It was lost with the failure that it caused. -/
  | lost (f : Failure)
  /-- The filter rejected its token. -/
  | rejected (t : Token)
  /-- Its token was handed out. -/
  | kept (t : Token)
  deriving DecidableEq, Repr

/-- Something that happens to a lexer over filters of type `φ`. -/
inductive Event (φ : Type) where
  /-- A lexer was made over a text of this size. -/
  | created (size : Nat)
  /-- A filter was asked about a token. -/
  | judged (filter : φ) (t : Token) (verdict : Except Failure Bool)
  /-- The item at a position of the feed was pulled. -/
  | pulled (index : Nat) (fate : Fate)
  /-- The end of a text of this size was reached. -/
  | reachedEnd (size : Nat)
  /-- The current token was handed out by advancing. -/
  | consumed (t : Token)
  /-- The current token was given up because a new filter rejected it. -/
  | discarded (t : Token)
  /-- An expectation was not met. -/
  | expected (m : Mismatch)
  /-- A report was given to a handler. -/
  | delivered (h : Handler φ) (m : Mismatch)
  /-- A filter was installed. -/
  | filterSet (f : Option φ)
  /-- A handler was installed. -/
  | handlerSet (h : Handler φ)

namespace Event

variable {φ : Type}

/-- What was expected and what was there, in one line. -/
def expectation (m : Mismatch) : String :=
  "Expected " ++ m.group ++ ", got " ++ m.token.group ++ " " ++ Text.quote m.token.value ++ " at " ++
    toString m.token.index

/-- The message about an event, if it has one. -/
def message? [Judge φ] : Event φ → Option String
  | created size => some ("Created lexer over " ++ toString size ++ " chars")
  | reachedEnd size => some ("Reached end of input at " ++ toString size)
  | expected m => some (expectation m)
  | filterSet f => some ("Filter set to " ++ Judge.labelOf f)
  | handlerSet h => some ("Error handler set to " ++ h.label)
  | _ => none

/-- The report that an installed handler was given. -/
def report? : Event φ → Option Mismatch
  | delivered h m => if h.isDefault then none else some m
  | _ => none

/-- The event is a pull. -/
def isPull : Event φ → Bool
  | pulled _ _ => true
  | _ => false

/-- The event is a question to a filter. -/
def isJudgement : Event φ → Bool
  | judged _ _ _ => true
  | _ => false

end Event

end Lookahead
