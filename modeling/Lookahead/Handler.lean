import Lookahead.Filter.Basic

/-!
# Handlers

What is done about an expectation that was not met. A handler may answer from the report alone, or follow a plan: any
number of operations on the lexer one after the other, each chosen by what the ones before gave. An operation that
fails does not end a plan, which may pass the failure on, but may also go on as if nothing had happened.

A plan can be followed to its end: the only loops are those that skip tokens. When a handler has a memory, or meets
itself in an expectation of its own, the plan says as which handler it goes on (`Plan.become`, `Plan.expect`).
-/

namespace Lookahead

/-- An operation that calls no handler. -/
inductive Act (φ : Type) where
  /-- Advances. -/
  | advance
  /-- Advances up to the end or to a token at which to stop. -/
  | skip (stop : Token → Bool)
  /-- Installs a filter. -/
  | filter (f : Option φ)

mutual

/-- What is done about an expectation that was not met. -/
inductive Handler (φ : Type) where
  /-- Fails with the report. -/
  | default
  /-- Looks at the report only; `label` tells the handler in messages. -/
  | answer (label : String) (reply : Mismatch → Except Failure Unit)
  /-- Turns to the lexer. -/
  | program (label : String) (respond : Mismatch → Plan φ)

/-- What is done with a lexer, step by step. -/
inductive Plan (φ : Type) where
  /-- Nothing more is done. -/
  | done (r : Except Failure Unit)
  /-- Looks at the tokens of the lexer. -/
  | look (next : View → Plan φ)
  /-- Carries out an operation, and goes on with the token that it gave, if any, or with its failure. -/
  | act (a : Act φ) (next : Except Failure (Option Token) → Plan φ)
  /-- Installs a handler. -/
  | onerror (h : Handler φ) (next : Plan φ)
  /-- Is another handler from now on, without a message. -/
  | become (h : Handler φ) (next : Plan φ)
  /-- Expects something, as the handler `h` from now on. -/
  | expect (h : Handler φ) (group : String) (value : Option String) (next : Except Failure (Option Token) → Plan φ)

end

namespace Plan

variable {φ : Type}

/-- Carries out an operation and fails if that does. -/
def perform (a : Act φ) (next : Plan φ) : Plan φ :=
  act a fun
    | .ok _ => next
    | .error f => done (.error f)

/-- Advances a number of times. -/
def advances : Nat → Plan φ
  | 0 => done (.ok ())
  | n + 1 => perform .advance (advances n)

/-- Advances up to the end or to a token that fits. A value needs a group. -/
def sync : Option String → Option String → Plan φ
  | none, none => done (.ok ())
  | none, some _ => look fun v => done (if v.current.isEof then .ok () else .error .valueWithoutGroup)
  | some g, value => perform (.skip (·.fits g value)) (done (.ok ()))

end Plan

namespace Handler

variable {φ : Type}

/-- Lets the mismatch pass. -/
def collect : Handler φ := answer "<handler collect>" fun _ => .ok ()

/-- Fails for a reason of its own. -/
def raise (reason : String) : Handler φ := answer "<handler raise>" fun _ => .error (.raised reason)

/-- Fails with the report under a note. -/
def wrap (note : String) : Handler φ := answer "<handler wrap>" fun m => .error (.annotated note m)

/-- Fails with the report. -/
def rethrow : Handler φ := answer "<handler rethrow>" fun m => .error (.mismatch m)

/-- Advances a number of times. -/
def advance (times : Nat) : Handler φ := program "<handler advance>" fun _ => .advances times

/-- Advances up to the end or to a token that fits. -/
def sync (group value : Option String) : Handler φ := program "<handler sync>" fun _ => .sync group value

/-- Installs a filter. -/
def filter (f : Option φ) : Handler φ := program "<handler filter>" fun _ => .perform (.filter f) (.done (.ok ()))

/-- Installs a handler. -/
def onerror (h : Handler φ) : Handler φ := program "<handler onerror>" fun _ => .onerror h (.done (.ok ()))

/-- Installs a handler and expects something else. -/
def expect (h : Handler φ) (group : String) (value : Option String) : Handler φ :=
  program "<handler expect>" fun _ => .onerror h (.expect h group value fun r => .done (r.map fun _ => ()))

/-- How a handler is called in messages. -/
def label : Handler φ → String
  | default => "<default>"
  | answer label _ => label
  | program label _ => label

/-- The handler that is there if no other is installed. -/
def isDefault : Handler φ → Bool
  | default => true
  | _ => false

/-- What a handler does about a report, as a plan. -/
def plan : Handler φ → Mismatch → Plan φ
  | default, m => .done (.error (.mismatch m))
  | answer _ reply, m => .done (reply m)
  | program _ respond, m => respond m

end Handler

end Lookahead
