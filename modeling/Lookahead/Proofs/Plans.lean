import Lookahead.Lexer

/-!
# Plans

Plans and handlers are made of each other. A handler is known by its plans (`Handler.plan`, `Lexer.react_eq`), so there
is one induction over plans, in which whatever is told of a mismatch may be taken for its plans (`Plan.induct`).

A plan that passes all failures on is candid (`Plan.Candid`): it fails as soon as one of its operations does. A plan
without operations is idle (`Plan.Idle`).
-/

namespace Lookahead

namespace Plan

variable {φ : Type}

/-- Induction over plans, those of the handlers that they expect something with included. -/
@[elab_as_elim]
theorem induct {P : Plan φ → Prop} (done : ∀ r, P (done r)) (look : ∀ next, (∀ v, P (next v)) → P (look next))
    (act : ∀ a next, (∀ r, P (next r)) → P (act a next)) (onerror : ∀ h next, P next → P (onerror h next))
    (become : ∀ h next, P next → P (become h next))
    (expect : ∀ h group value next, (∀ m, P (h.plan m)) → (∀ r, P (next r)) → P (expect h group value next))
    (p : Plan φ) : P p :=
  Plan.rec (motive_1 := fun h => ∀ m, P (h.plan m)) (motive_2 := P) (fun _ => done _) (fun _ _ _ => done _)
    (fun _ _ ih => ih) done look act (fun h next _ => onerror h next) (fun h next _ => become h next) expect p

/-- The plan does nothing with the lexer but look at it. -/
inductive Idle : Plan φ → Prop
  | done (r : Except Failure Unit) : Idle (done r)
  | look {next : View → Plan φ} (rest : ∀ v, (next v).Idle) : Idle (look next)
  | become {h : Handler φ} {next : Plan φ} (rest : next.Idle) : Idle (become h next)

/-- A failure of an operation is the failure of the plan. -/
inductive Candid : Plan φ → Prop
  | done (r : Except Failure Unit) : Candid (done r)
  | look {next : View → Plan φ} (rest : ∀ v, (next v).Candid) : Candid (look next)
  | act {a : Act φ} {next : Except Failure (Option Token) → Plan φ} (rest : ∀ t, (next (.ok t)).Candid)
    (passed : ∀ f, next (.error f) = .done (.error f)) : Candid (act a next)
  | onerror {h : Handler φ} {next : Plan φ} (rest : next.Candid) : Candid (onerror h next)
  | become {h : Handler φ} {next : Plan φ} (rest : next.Candid) : Candid (become h next)
  | expect {h : Handler φ} {group : String} {value : Option String} {next : Except Failure (Option Token) → Plan φ}
    (told : ∀ m, (h.plan m).Candid) (rest : ∀ t, (next (.ok t)).Candid)
    (passed : ∀ f, next (.error f) = .done (.error f)) : Candid (expect h group value next)

end Plan

/-- The handler catches no failure. -/
def Handler.Candid {φ : Type} (h : Handler φ) : Prop := ∀ m, (h.plan m).Candid

namespace Lexer

variable {φ : Type} [Judge φ] (patience : Nat)

/-- To tell a handler of a mismatch is to follow its plan. -/
theorem react_eq (h : Handler φ) (m : Mismatch) (l : Lexer φ) :
    react patience h m l = carryOut patience (h.plan m) (l.note (.delivered h m)) := by
  cases h with
  | default => rw [react, Handler.plan, carryOut]; rfl
  | answer label reply => rw [react, Handler.plan, carryOut]
  | program label respond => rw [react, Handler.plan]

/-- At most another handler is in place after an idle plan. -/
theorem carryOut_of_idle {p : Plan φ} (hp : p.Idle) (l : Lexer φ) : ∃ h, (carryOut patience p l).2 = l.become h := by
  induction hp generalizing l with
  | done r => exact ⟨l.handler, by rw [carryOut]; rfl⟩
  | look _ ih =>
    rw [carryOut]
    exact ih l.view l
  | @become h _ _ ih =>
    rw [carryOut]
    exact ih (l.become h)

end Lexer

end Lookahead
