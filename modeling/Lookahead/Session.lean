import Lookahead.Lexer
import Lookahead.Tokenizer

/-!
# Sessions

A factory makes lexers over inputs, all with one tokenizer, one filter and one handler to begin with. A session is a
factory with the lexers it made; it is driven step by step, and each step is answered by its result, the state of the
lexer after it, the counts so far and the events of the step.

The factory's filter is in common to all lexers, and so is the feed if the factory says so. They are lent to a lexer
for a step and taken back after it.
-/

namespace Lookahead

/-- What the lexers of a session are made with. -/
structure Factory (φ : Type) where
  tokenizer : Tokenizer
  /-- All lexers read from the feed of the first. -/
  shared : Bool := false
  filter : Option φ := none
  handler : Handler φ := .default

/-- An operation on a lexer. -/
inductive Call (φ : Type) where
  | advance
  | peek (group value : Option String)
  | accept (group : String) (value : Option String)
  | expect (group : String) (value : Option String)
  | filter (f : Option φ)
  | onerror (h : Handler φ)
  | drain (most : Option Nat)
  | describe

/-- What an operation gives. -/
inductive Answer where
  | done
  | token (t : Option Token)
  | tokens (ts : List Token)
  | description (lexer source input : String)
  deriving DecidableEq, Repr

/-- Carries out an operation. -/
def Lexer.call {φ : Type} [Judge φ] (patience : Nat) (l : Lexer φ) : Call φ → Except Halt Answer × Lexer φ
  | .advance => let (r, l) := l.advance patience; (r.map fun t => .token (some t), l)
  | .peek group value => (((l.peek group value).map .token).mapError .failed, l)
  | .accept group value => let (r, l) := l.accept patience group value; (r.map .token, l)
  | .expect group value => let (r, l) := l.expect patience group value; (r.map .token, l)
  | .filter f => let (r, l) := l.filter patience f; (r.map fun _ => .done, l)
  | .onerror h => (.ok .done, l.onerror h)
  | .drain most =>
    let (r, l) := l.drain patience most.isSome (most.getD patience)
    (r.map .tokens, l)
  | .describe => (.ok (.description l.describe l.source.describe l.source.input), l)

/-- A step of a session: another lexer, or an operation on one of the lexers, by number. A filter or handler that a call
installs is a value of its own: only the factory's filter is one object that several lexers change, and one with a state
that is installed on two lexers goes on as two. The same goes for the factory's handler. -/
inductive Step (φ : Type) where
  | lex (input : String)
  | call (number : Nat) (call : Call φ)

/-- A factory, the lexers that it made, what they have in common, and the counts so far. -/
structure Session (φ : Type) where
  factory : Factory φ
  /-- The feed in common, once it is made. -/
  feed : Option Feed := none
  /-- The filter in common, as it is now. -/
  filter : Option φ
  /-- The lexers in order of creation; an attempt that failed takes a number too. -/
  lexers : Array (Option (Lexer φ)) := #[]
  pulls : Nat := 0
  judgements : Nat := 0

/-- The answer to a step. -/
structure Reply (φ : Type) where
  result : Except Halt Answer
  /-- The lexer after the step, if there is one. -/
  lexer : Option (Lexer φ)
  pulls : Nat
  judgements : Nat
  /-- The events of the step, in order. -/
  events : List (Event φ)

namespace Reply

variable {φ : Type}

/-- The messages of the step. -/
def messages [Judge φ] (r : Reply φ) : List String := r.events.filterMap Event.message?

/-- The reports that handlers were given in the step. -/
def reports (r : Reply φ) : List Mismatch := r.events.filterMap Event.report?

end Reply

namespace Session

variable {φ : Type}

/-- A session in which nothing was done. -/
def start (f : Factory φ) : Session φ := ⟨f, none, f.filter, #[], 0, 0⟩

/-- The intake with what it has in common with others, and an empty record. -/
def lend (s : Session φ) (i : Intake φ) : Intake φ :=
  { i with
    common := s.filter
    feed := if s.factory.shared then s.feed.getD i.feed else i.feed
    record := [] }

/-- Takes back what was lent, and counts. -/
def takeBack (s : Session φ) (i : Intake φ) : Session φ :=
  { s with
    filter := i.common
    feed := if s.factory.shared then some i.feed else s.feed
    pulls := s.pulls + i.record.countP Event.isPull
    judgements := s.judgements + i.record.countP Event.isJudgement }

/-- The answer to a step after which the session is `s`, and the events of the step stand in `record`. -/
def reply (s : Session φ) (result : Except Halt Answer) (lexer : Option (Lexer φ)) (record : List (Event φ)) :
    Reply φ × Session φ :=
  (⟨result, lexer, s.pulls, s.judgements, record.reverse⟩, s)

/-- The feed for another lexer: the one in common if it is there, else one made for the input. -/
def supply (s : Session φ) (input : String) : Except Failure Feed :=
  match s.feed with
  | some feed => .ok feed
  | none => s.factory.tokenizer input

variable [Judge φ]

/-- Gives the next number to a lexer, or to the attempt to make one. -/
def add (s : Session φ) (l : Option (Lexer φ)) : Session φ := { s with lexers := s.lexers.push l }

/-- Makes another lexer. -/
def lex (patience : Nat) (s : Session φ) (input : String) : Reply φ × Session φ :=
  match s.supply input with
  | .error f => (s.add none).reply (.error (.failed f)) none []
  | .ok feed =>
    let (r, i) := Lexer.create patience { source := ⟨input⟩, feed, common := s.filter } s.factory.handler
    let s := s.takeBack i
    match r with
    | .ok l => (s.add (some l)).reply (.ok .done) (some l) i.record
    | .error e => (s.add none).reply (.error e) none i.record

/-- Carries out an operation on a lexer. Without that lexer nothing happens. -/
def call (patience : Nat) (s : Session φ) (number : Nat) (c : Call φ) : Reply φ × Session φ :=
  match (s.lexers[number]?).join with
  | none => s.reply (.ok .done) none []
  | some l =>
    let (r, l) := { l with intake := s.lend l.intake }.call patience c
    let s := s.takeBack l.intake
    { s with lexers := s.lexers.setIfInBounds number (some l) }.reply r (some l) l.intake.record

/-- Carries out a step. -/
def step (patience : Nat) (s : Session φ) : Step φ → Reply φ × Session φ
  | .lex input => s.lex patience input
  | .call number c => s.call patience number c

/-- Carries out steps one after the other. -/
def run (patience : Nat) : Session φ → List (Step φ) → List (Reply φ) × Session φ
  | s, [] => ([], s)
  | s, step :: steps =>
    let (reply, s) := s.step patience step
    let (replies, s) := run patience s steps
    (reply :: replies, s)

/-- How many tokens may be rejected in a row, unless one says otherwise. -/
def patience : Nat := 1000000

end Session

end Lookahead
