import Lookahead.Intake

/-!
# Lexers

A lexer holds one token of an intake, the current one, and the token that was current before the last advance. Every
operation gives a result, or tells why there is none, together with the lexer after it: what was done before a failure
stays done.

All operations that may skip tokens are given a patience (see `Intake.next`).
-/

namespace Lookahead

/-- A reader of tokens with one token of lookahead. -/
structure Lexer (φ : Type) where
  intake : Intake φ
  previous : Option Token
  current : Token
  handler : Handler φ

namespace Lexer

variable {φ : Type}

/-- The text that is read. -/
def source (l : Lexer φ) : Source := l.intake.source

/-- The current token claims the end of the text. -/
def atEnd (l : Lexer φ) : Bool := l.current.isEof

/-- What a filter may see of the lexer. -/
def view (l : Lexer φ) : View := ⟨l.current, l.previous⟩

/-- Records an event. -/
def note (l : Lexer φ) (e : Event φ) : Lexer φ := { l with intake := l.intake.note e }

/-- The current token between parentheses; `shows` tells which characters show. -/
def describeBy (shows : Char → Bool) (l : Lexer φ) : String := "Lexer(current=" ++ l.current.describeBy shows ++ ")"

/-- The current token between parentheses. -/
def describe (l : Lexer φ) : String := l.describeBy Text.isPrintable

/-- The current token; with a group only if it fits, and a value needs a group. -/
def peek (l : Lexer φ) (group value : Option String := none) : Except Failure (Option Token) :=
  match group, value with
  | none, none => .ok (some l.current)
  | none, some _ => .error .valueWithoutGroup
  | some g, v => .ok (if l.current.fits g v then some l.current else none)

/-- Puts a handler in the place of the one that is there. -/
def become (l : Lexer φ) (h : Handler φ) : Lexer φ := { l with handler := h }

/-- Installs a handler. -/
def onerror (l : Lexer φ) (h : Handler φ) : Lexer φ := (l.become h).note (.handlerSet h)

/-- Goes on after an operation, be it that it gave a result or that it failed. Without patience nothing goes on. -/
def goOn {α β : Type} (next : Except Failure α → Lexer φ → Except Halt β × Lexer φ) :
    Except Halt α × Lexer φ → Except Halt β × Lexer φ
  | (.ok a, l) => next (.ok a) l
  | (.error (.failed f), l) => next (.error f) l
  | (.error .impatient, l) => (.error .impatient, l)

variable [Judge φ]

/-- Makes a lexer and reads its first token. Without a lexer what is left is the intake. -/
def create (patience : Nat) (i : Intake φ) (h : Handler φ) : Except Halt (Lexer φ) × Intake φ :=
  match (i.note (.created i.source.size)).next none patience with
  | (.ok t, i) => (.ok ⟨i, none, t, h⟩, i)
  | (.error e, i) => (.error e, i)

/-- The next token of the intake; the lexer keeps its tokens. -/
def next (patience : Nat) (l : Lexer φ) : Except Halt Token × Lexer φ :=
  let (r, intake) := l.intake.next (some l.view) patience
  (r, { l with intake })

/-- Hands out the current token and goes on to the next one. -/
def advance (patience : Nat) (l : Lexer φ) : Except Halt Token × Lexer φ :=
  match l.next patience with
  | (.ok t, l') => (.ok l.current, { l' with previous := some l.current, current := t }.note (.consumed l.current))
  | (.error e, l') => (.error e, l')

/-- Advances if the current token fits. -/
def accept (patience : Nat) (group : String) (value : Option String) (l : Lexer φ) :
    Except Halt (Option Token) × Lexer φ :=
  if l.current.fits group value then
    let (r, l) := l.advance patience
    (r.map some, l)
  else (.ok none, l)

/-- Installs a filter, and gives up the current token if the filter rejects it. The token that claims the end is not
judged. The filter stays whatever comes of it. -/
def filter (patience : Nat) (f : Option φ) (l : Lexer φ) : Except Halt Unit × Lexer φ :=
  let l := { l with intake := l.intake.install f }.note (.filterSet f)
  if l.atEnd then (.ok (), l)
  else match l.intake.judge (some l.view) l.current with
    | (.error f, intake) => (.error (.failed f), { l with intake })
    | (.ok true, intake) => (.ok (), { l with intake })
    | (.ok false, intake) =>
      match { l with intake }.next patience with
      | (.ok t, l') => (.ok (), { l' with current := t }.note (.discarded l.current))
      | (.error e, l') => (.error e, l')

/-- Advances up to the end or to a token at which to stop, for at most `n` tokens. -/
def skip (patience : Nat) (stop : Token → Bool) : Nat → Lexer φ → Except Halt Unit × Lexer φ
  | n, l =>
    if l.atEnd || stop l.current then (.ok (), l)
    else match n with
      | 0 => (.error .impatient, l)
      | n + 1 =>
        match l.advance patience with
        | (.ok _, l) => skip patience stop n l
        | (.error e, l) => (.error e, l)

/-- Carries out an operation that calls no handler. -/
def act (patience : Nat) (l : Lexer φ) : Act φ → Except Halt (Option Token) × Lexer φ
  | .advance => let (r, l) := l.advance patience; (r.map some, l)
  | .skip stop => let (r, l) := l.skip patience stop patience; (r.map fun _ => none, l)
  | .filter f => let (r, l) := l.filter patience f; (r.map fun _ => none, l)

/-- Advances if the current token fits, and else reports that it does not, to `react`. -/
def expectOr (patience : Nat) (react : Mismatch → Lexer φ → Except Halt Unit × Lexer φ) (group : String)
    (value : Option String) (l : Lexer φ) : Except Halt (Option Token) × Lexer φ :=
  match l.accept patience group value with
  | (.ok none, l) =>
    let m : Mismatch := ⟨l.current, group, value⟩
    let (r, l) := react m (l.note (.expected m))
    (r.map fun _ => none, l)
  | answer => answer

mutual

/-- What a handler does about a mismatch. -/
def react (patience : Nat) : Handler φ → Mismatch → Lexer φ → Except Halt Unit × Lexer φ
  | .default, m, l => (.error (.failed (.mismatch m)), l.note (.delivered .default m))
  | .answer label reply, m, l => ((reply m).mapError .failed, l.note (.delivered (.answer label reply) m))
  | .program label respond, m, l => carryOut patience (respond m) (l.note (.delivered (.program label respond) m))

/-- Follows a plan. What was done before a failure stays done. -/
def carryOut (patience : Nat) : Plan φ → Lexer φ → Except Halt Unit × Lexer φ
  | .done r, l => (r.mapError .failed, l)
  | .look next, l => carryOut patience (next l.view) l
  | .act a next, l => goOn (fun r l => carryOut patience (next r) l) (l.act patience a)
  | .onerror h next, l => carryOut patience next (l.onerror h)
  | .become h next, l => carryOut patience next (l.become h)
  | .expect h group value next, l =>
    goOn (fun r l => carryOut patience (next r) l) ((l.become h).expectOr patience (react patience h) group value)

end

/-- Advances if the current token fits, and else calls the handler. If that lets the mismatch pass, there is no
token. -/
def expect (patience : Nat) (group : String) (value : Option String) (l : Lexer φ) :
    Except Halt (Option Token) × Lexer φ :=
  l.expectOr patience (fun m l => react patience l.handler m l) group value

/-- Advances up to the end, for at most `n` tokens, and gives the tokens; `atMost` tells whether to stop quietly when
`n` of them were read. -/
def drain (patience : Nat) (atMost : Bool) : Nat → Lexer φ → Except Halt (List Token) × Lexer φ
  | n, l =>
    if l.atEnd then (.ok [], l)
    else match n with
      | 0 => (if atMost then .ok [] else .error .impatient, l)
      | n + 1 =>
        match l.advance patience with
        | (.error e, l) => (.error e, l)
        | (.ok t, l) =>
          let (r, l) := drain patience atMost n l
          (r.map (t :: ·), l)

end Lexer

end Lookahead
