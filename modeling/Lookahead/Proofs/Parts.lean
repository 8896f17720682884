import Lookahead.Proofs.Operations

/-!
# Parts of operations

All operations, and whatever handlers do, are made of advancing, of installing filters, of putting handlers in place
and of remarks. `Lexer.HandsOut` follows these parts from one state of a lexer to another and lists the tokens that were
handed out on the way.
-/

namespace Lookahead

namespace Lexer

variable {φ : Type} [Judge φ] {patience : Nat} {l m l' : Lexer φ} {ts us : List Token}

/-- A part of an operation, and the token that it hands out, if it is an advance that has a result. -/
inductive Moves (patience : Nat) (l : Lexer φ) : Option Token → Lexer φ → Prop
  | advanced {t : Token} {l' : Lexer φ} (h : l.advance patience = (.ok t, l')) : Moves patience l (some t) l'
  | halted {e : Halt} {l' : Lexer φ} (h : l.advance patience = (.error e, l')) : Moves patience l none l'
  | filtered (p : Option φ) : Moves patience l none (l.filter patience p).2
  | onerror (g : Handler φ) : Moves patience l none (l.onerror g)
  | became (g : Handler φ) : Moves patience l none (l.become g)
  | remarked {e : Event φ} (h : e.isRemark = true) : Moves patience l none (l.note e)

/-- From `l` the lexer came to the last argument by parts of operations, and the tokens of the list were handed out on
the way, in this order. -/
inductive HandsOut (patience : Nat) (l : Lexer φ) : List Token → Lexer φ → Prop
  | start : HandsOut patience l [] l
  | step {ts : List Token} {o : Option Token} {m m' : Lexer φ} (h : HandsOut patience l ts m)
    (hm : Moves patience m o m') : HandsOut patience l (ts ++ o.toList) m'

namespace HandsOut

/-- A part that hands out nothing. -/
theorem aside (h : HandsOut patience l ts m) (hm : Moves patience m none l') : HandsOut patience l ts l' := by
  have hstep := h.step hm
  rwa [Option.toList_none, List.append_nil] at hstep

theorem trans (h : HandsOut patience l ts m) (h' : HandsOut patience m us l') : HandsOut patience l (ts ++ us) l' := by
  induction h' with
  | start =>
    rw [List.append_nil]
    exact h
  | step _ hm ih =>
    rw [← List.append_assoc]
    exact ih.step hm

end HandsOut

/-- Every operation is made of these parts, also one that goes on after a failure. -/
theorem handsOut_carries (patience : Nat) (l : Lexer φ) :
    Carries patience (fun l' => ∃ ts, HandsOut patience l ts l') fun _ l' => ∃ ts, HandsOut patience l ts l' where
  stop _ h := h
  remark he := fun ⟨ts, h⟩ => ⟨ts, h.aside (.remarked he)⟩
  onerror g := fun ⟨ts, h⟩ => ⟨ts, h.aside (.onerror g)⟩
  become g := fun ⟨ts, h⟩ => ⟨ts, h.aside (.became g)⟩
  advance {l l' r} ha := fun ⟨ts, h⟩ => by
    cases r with
    | ok t => exact ⟨ts ++ [t], h.step (.advanced ha.eq_advance)⟩
    | error e => exact ⟨ts, h.aside (.halted ha.eq_advance)⟩
  filter {l l' p r} hf := fun ⟨ts, h⟩ => by
    have hp := h.aside (.filtered p)
    rw [hf.eq_filter] at hp
    exact meets_self.2 ⟨ts, hp⟩

theorem call_handsOut (patience : Nat) (l : Lexer φ) (c : Call φ) :
    ∃ ts, HandsOut patience l ts (l.call patience c).2 :=
  meets_self.1 ((handsOut_carries patience l).of_call (.inr fun _ _ h => h) ⟨[], .start⟩)

theorem run_handsOut (patience : Nat) (l : Lexer φ) (calls : List (Call φ)) :
    ∃ ts, HandsOut patience l ts (l.run patience calls).2 := by
  induction calls generalizing l with
  | nil => exact ⟨[], .start⟩
  | cons c calls ih =>
    obtain ⟨ts, h⟩ := call_handsOut patience l c
    obtain ⟨us, h'⟩ := ih (l.call patience c).2
    exact ⟨ts ++ us, h.trans h'⟩

end Lexer

end Lookahead
