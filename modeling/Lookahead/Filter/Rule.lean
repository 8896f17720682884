import Lookahead.Filter.Basic

/-!
# Rules

Filters built from conditions on a token, conditions that count, and conditions on the lexer, with negation and the
two connectives, which leave out their second part where the first decides.
-/

namespace Lookahead

/-- A condition on tokens. Conditions that count carry their count. -/
inductive Rule where
  | const (verdict : Bool)
  | groups (list : List String)
  | values (list : List String)
  | startsAt (index : Int)
  | endsBy (index : Int)
  | fits (group : String) (value : Option String)
  | raise (group reason : String)
  | not (rule : Rule)
  | both (first second : Rule)
  | either (first second : Rule)
  /-- Every `n`-th question. -/
  | every (n asked : Nat)
  /-- The first `n` questions. -/
  | first (n asked : Nat)
  /-- Not the same token as in the question before. -/
  | fresh (last : Option Token)
  /-- Not the group of the current token. -/
  | unlikeCurrent
  /-- Not the value of the previous token. -/
  | unlikePrevious
  deriving DecidableEq, Repr

namespace Rule

/-- All parts hold. -/
def allOf (parts : List Rule) : Rule := parts.foldr both (const true)

/-- Some part holds. -/
def anyOf (parts : List Rule) : Rule := parts.foldr either (const false)

/-- The verdict on a token, and the rule after it. -/
def judge : Rule → Option View → Token → Except Failure Bool × Rule
  | const b, _, _ => (.ok b, const b)
  | groups gs, _, t => (.ok (gs.contains t.group), groups gs)
  | values vs, _, t => (.ok (vs.contains t.value), values vs)
  | startsAt i, _, t => (.ok (decide (i ≤ t.index)), startsAt i)
  | endsBy i, _, t => (.ok (decide ((t.finish : Int) ≤ i)), endsBy i)
  | fits g v, _, t => (.ok (t.fits g v), fits g v)
  | raise g reason, _, t => (if t.group = g then .error (.raised reason) else .ok true, raise g reason)
  | not r, view, t =>
    match judge r view t with
    | (.ok b, r) => (.ok !b, not r)
    | (.error f, r) => (.error f, not r)
  | both r s, view, t =>
    match judge r view t with
    | (.ok true, r) => let (verdict, s) := judge s view t; (verdict, both r s)
    | (verdict, r) => (verdict, both r s)
  | either r s, view, t =>
    match judge r view t with
    | (.ok false, r) => let (verdict, s) := judge s view t; (verdict, either r s)
    | (verdict, r) => (verdict, either r s)
  | every n k, _, _ => (.ok ((k + 1) % n == 0), every n (k + 1))
  | first n k, _, _ => (.ok (decide (k + 1 ≤ n)), first n (k + 1))
  | fresh last, _, t => (.ok (!last.any fun u => decide (t.Same u)), fresh t)
  | unlikeCurrent, view, t => (.ok (view.all fun v => v.current.group != t.group), unlikeCurrent)
  | unlikePrevious, view, t =>
    (.ok ((view.bind View.previous).all fun u => u.value != t.value), unlikePrevious)

end Rule

/-- A rule under a name. -/
structure Filter where
  label : String
  rule : Rule
  deriving DecidableEq, Repr

/-- A rule under the name of its kind. -/
def Filter.ofKind (kind : String) (rule : Rule) : Filter := ⟨"<filter " ++ kind ++ ">", rule⟩

instance : Judge Filter where
  label := Filter.label
  judge f view t := let (verdict, rule) := f.rule.judge view t; (verdict, { f with rule })

theorem Filter.judge_eq (f : Filter) (view : Option View) (t : Token) :
    Judge.judge f view t = ((f.rule.judge view t).1, { f with rule := (f.rule.judge view t).2 }) := rfl

end Lookahead
