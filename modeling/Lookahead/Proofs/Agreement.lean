import Lookahead.Proofs.Deliveries

/-!
# Peeking, accepting and expecting

To peek for a token, to accept it and to expect it ask the same of the current token (`Lexer.Finds`), and where it is
found, to accept or to expect it is to advance (`Lexer.peek_accept_expect_agree`). So if they give no token, the current
one is another; it is never that there is none.
-/

namespace Lookahead

/-- What a handler that looks at the report only makes of it. Other handlers turn to the lexer. -/
def Handler.reply? {φ : Type} : Handler φ → Option (Mismatch → Except Failure Unit)
  | default => some fun m => .error (.mismatch m)
  | answer _ reply => some reply
  | _ => none

namespace Lexer

variable {φ : Type}

/-- The current token has the group and, if one is asked for, the value. -/
def Finds (l : Lexer φ) (group : String) (value : Option String) : Prop :=
  l.current.group = group ∧ ∀ v, value = some v → l.current.value = v

theorem fits_iff_finds {l : Lexer φ} {group : String} {value : Option String} :
    l.current.fits group value = true ↔ l.Finds group value := by
  cases value <;> simp [Token.fits, Finds]

variable [Judge φ] {l : Lexer φ} {group : String} {value : Option String}

/-- A mismatch is remarked, and the answer is the reply of a handler that looks at the report only. -/
theorem call_expect_of_reply {reply : Mismatch → Except Failure Unit} (h : l.current.fits group value = false)
    (hr : l.handler.reply? = some reply) (patience : Nat) :
    let m : Mismatch := ⟨l.current, group, value⟩
    l.call patience (.expect group value) =
      (((reply m).mapError .failed).map fun _ => .token none,
        (l.note (.expected m)).note (.delivered l.handler m)) := by
  intro m
  simp only [call]
  rw [expect_of_not_fits patience h]
  cases hh : l.handler with
  | default =>
    rw [hh] at hr
    obtain rfl := Option.some.inj hr
    rfl
  | answer label reply' =>
    rw [hh] at hr
    obtain rfl := Option.some.inj hr
    simp only [react]
    cases reply' m <;> rfl
  | _ =>
    rw [hh] at hr
    cases hr

/-- What hands out the current token gives a token or fails. -/
theorem call_ne_none_of_passes {c : Call φ} (h : c.passes l.current = true) (patience : Nat) :
    (l.call patience c).1 ≠ .ok (.token none) := by
  rw [call_of_passes h]
  cases (l.advance patience).1 <;> simp [Except.map]

/-- A call that is no mismatch makes no remark. -/
theorem since_of_no_mismatch {c : Call φ} (h : c.mismatch? l.current = none) (patience : Nat) :
    ∀ e ∈ l.since (l.call patience c).2, e.isRemark = false := by
  obtain ⟨-, new, hevents, hnew⟩ := call_of_no_mismatch h patience
  rw [since, hevents, List.drop_left]
  exact hnew

/-- In every state, `peek` shows the current token exactly if `accept` takes it. Then `accept` and `expect` do what
advancing does, with its answer, and no handler is called. Otherwise `peek` and `accept` give no token and change
nothing; `expect` gives what the handler makes of it, and only the record grows. A lexer that was made always has a
current token, which its feed gave or which is the one at the end. -/
theorem peek_accept_expect_agree (patience : Nat) (l : Lexer φ) (group : String) (value : Option String) :
    let advance := l.call patience .advance
    let peek := l.call patience (.peek (some group) value)
    let accept := l.call patience (.accept group value)
    let expect := l.call patience (.expect group value)
    let report : Mismatch := ⟨l.current, group, value⟩
    peek.2 = l ∧ (peek.1 = .ok (.token (some l.current)) ↔ l.Finds group value) ∧
      (accept.1 ≠ .ok (.token none) ↔ l.Finds group value) ∧
      (l.Finds group value → accept = advance ∧ expect = advance ∧ ∀ e ∈ l.since expect.2, e.isRemark = false) ∧
      (¬ l.Finds group value → peek.1 = .ok (.token none) ∧ accept = (.ok (.token none), l) ∧
        ∀ reply, l.handler.reply? = some reply →
          expect.1 = ((reply report).mapError .failed).map (fun _ => .token none) ∧
          expect.2 = { l with intake := { l.intake with
            record := .delivered l.handler report :: .expected report :: l.intake.record } }) ∧
      (expect.1 = .ok (.token none) → ¬ l.Finds group value) ∧
      ∀ (input : String) (feed : Feed) (f : Option φ) (handler : Handler φ) (l₀ : Lexer φ) (before : List (Call φ)),
        (create patience { source := ⟨input⟩, feed, common := f } handler).1 = .ok l₀ →
        l = (l₀.run patience before).2 →
        l.current = .eof ⟨input⟩ ∨
          ∃ k < l.intake.feed.taken, (feed.outcome k).read ⟨input⟩ = .ok (some l.current) := by
  intro advance peek accept expect report
  have hpeek : peek = (.ok (.token (if l.current.fits group value then some l.current else none)), l) := rfl
  have hfound : l.current.fits group value = true → accept = advance ∧ expect = advance :=
    fun h => ⟨call_of_passes (c := .accept group value) h patience,
      call_of_passes (c := .expect group value) h patience⟩
  have hmissed : l.current.fits group value = false → accept = (.ok (.token none), l) := by
    intro h
    simp only [accept, call]
    rw [accept_of_not_fits patience h]
    rfl
  rw [hpeek, ← fits_iff_finds]
  refine ⟨rfl, ?_, ⟨fun h => ?_, fun h => ?_⟩, fun h => ?_, fun h => ?_, fun h hf => ?_, ?_⟩
  · cases l.current.fits group value <;> simp
  · rw [← Bool.not_eq_false]
    exact fun hf => h (congrArg Prod.fst (hmissed hf))
  · exact call_ne_none_of_passes (c := .accept group value) h patience
  · refine ⟨(hfound h).1, (hfound h).2, since_of_no_mismatch ?_ patience⟩
    simp [Call.mismatch?, h]
  · rw [Bool.not_eq_true] at h
    refine ⟨by rw [h]; rfl, hmissed h, fun reply hr => ?_⟩
    have hexpect := call_expect_of_reply h hr patience
    exact ⟨congrArg Prod.fst hexpect, congrArg Prod.snd hexpect⟩
  · exact call_ne_none_of_passes (c := .expect group value) hf patience h
  · intro input feed f handler l₀ before created hl
    have hg : Grounded ⟨input⟩ feed.outcome l := by
      rw [hl]
      exact Grounded.stable.of_run (fun _ _ _ _ => trivial) (Grounded.of_create rfl rfl created)
    cases hx : l.intake.exhausted with
    | true => exact .inl (hg.current_of_exhausted hx)
    | false => exact .inr (hg.current_of_open hx)

end Lexer

end Lookahead
