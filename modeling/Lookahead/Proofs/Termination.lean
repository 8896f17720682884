import Lookahead.Proofs.Patience
import Lookahead.Proofs.Sessions

/-!
# Lexers come to their end

A lexer whose feed ends makes at most one pull for each item that is left, and one for the end, whatever is done in its
session and whatever fails; as many advances bring it to its end, and a patience of as many is enough for all that it
does (`Session.comes_to_end`). The others of the session can only take items from it, and only if the feed is shared.
The invariant is `Session.Closes`, with a bound that every pull and every advance reduces.
-/

namespace Lookahead

/-- The step advances the lexer with the number `n`. -/
def Step.isAdvance {φ : Type} (n : Nat) : Step φ → Bool
  | call m .advance => m == n
  | _ => false

namespace Session

variable {φ : Type}

/-- The lexer with the number `n`, with what is lent to it. -/
def lexer? (s : Session φ) (n : Nat) : Option (Lexer φ) :=
  s.lexers[n]?.join.map fun l => { l with intake := s.lend l.intake }

/-- A feed in common is there. -/
def Supplied (s : Session φ) : Prop := s.factory.shared = true → s.feed.isSome = true

variable {s : Session φ} {n m b : Nat} {l : Lexer φ}

theorem lexer?_eq_some_iff :
    s.lexer? n = some l ↔
      ∃ l₀, s.lexers[n]? = some (some l₀) ∧ ({ l₀ with intake := s.lend l₀.intake } : Lexer φ) = l := by
  unfold lexer?
  rw [Option.map_eq_some_iff]
  simp only [Option.join_eq_some_iff]

variable [Judge φ]

theorem call_of_lexer? (h : s.lexer? n = some l) (patience : Nat) (c : Call φ) :
    s.call patience n c =
      let (r, l') := l.call patience c
      let s' := { s.takeBack l'.intake with lexers := s.lexers.setIfInBounds n (some l') }
      (⟨r, some l', s'.pulls, s'.judgements, l'.events⟩, s') := by
  obtain ⟨l₀, hl₀, rfl⟩ := lexer?_eq_some_iff.1 h
  exact call_of_some hl₀ patience c

/-- A lexer goes on as its call left it. -/
theorem lexer?_call (h : s.lexer? n = some l) (patience : Nat) (c : Call φ) :
    (s.call patience n c).2.lexer? n =
      some { (l.call patience c).2 with intake := { (l.call patience c).2.intake with record := [] } } := by
  obtain ⟨l₀, hl₀, -⟩ := lexer?_eq_some_iff.1 h
  obtain ⟨hn, -⟩ := Array.getElem?_eq_some_iff.1 hl₀
  rw [call_of_lexer? h, lexer?_eq_some_iff]
  refine ⟨(l.call patience c).2, Array.getElem?_setIfInBounds_self_of_lt hn, ?_⟩
  unfold lend takeBack
  cases s.factory.shared <;> simp

/-- A feed in common goes on with every step. -/
private theorem feed_onward {feed : Feed} (shared : s.factory.shared = true) (hf : s.feed = some feed) (patience : Nat)
    (step : Step φ) :
    ∃ feed', (s.step patience step).2.feed = some feed' ∧ feed'.outcome = feed.outcome ∧ feed.taken ≤ feed'.taken := by
  have back : ∀ i : Intake φ, (s.takeBack i).feed = some i.feed := fun i => if_pos shared
  cases step with
  | lex input =>
    have hsupply : s.supply input = .ok feed := by
      unfold supply
      rw [hf]
    have honward := Lexer.onward_of_create patience { source := ⟨input⟩, feed, common := s.filter } s.factory.handler
    simp only [Session.step, lex, hsupply]
    rcases hc : Lexer.create patience { source := ⟨input⟩, feed, common := s.filter } s.factory.handler with ⟨_ | _, i⟩
    · rw [hc] at honward
      exact ⟨i.feed, back i, honward⟩
    · rw [hc] at honward
      exact ⟨i.feed, back i, honward⟩
  | call k c =>
    simp only [Session.step]
    cases hl : s.lexers[k]?.join with
    | none =>
      rw [call_of_none hl]
      exact ⟨feed, hf, rfl, Nat.le_refl _⟩
    | some l₀ =>
      have hlent : (s.lend l₀.intake).feed = feed := by
        unfold lend
        rw [if_pos shared, hf]
        rfl
      have honward := Lexer.call_onward patience { l₀ with intake := s.lend l₀.intake } c
      rw [call_of_some (Option.join_eq_some_iff.1 hl)]
      exact ⟨_, back _, hlent ▸ honward⟩

/-- Steps on others leave a lexer as it is, and at most take from its feed. -/
private theorem lexer?_step_of_ne (supplied : s.Supplied) (h : s.lexer? n = some l) (patience : Nat) {step : Step φ}
    (hn : s.subject step ≠ n) :
    ∃ l', (s.step patience step).2.lexer? n = some l' ∧ l.intake.Onward l'.intake ∧
      l'.intake.exhausted = l.intake.exhausted := by
  obtain ⟨l₀, hl₀, rfl⟩ := lexer?_eq_some_iff.1 h
  obtain ⟨hfactory, -, -⟩ := s.feed_step patience step
  refine ⟨_, lexer?_eq_some_iff.2 ⟨l₀, (lexers_step s patience step (Ne.symm hn)).trans hl₀, rfl⟩, ?_, rfl⟩
  unfold Intake.Onward lend
  rw [hfactory]
  cases hs : s.factory.shared with
  | false => exact ⟨rfl, Nat.le_refl _⟩
  | true =>
    obtain ⟨feed, hf⟩ := Option.isSome_iff_exists.1 (supplied hs)
    obtain ⟨feed', hf', honward⟩ := feed_onward hs hf patience step
    rw [hf, hf']
    exact honward

/-! ### Every pull and every advance is paid -/

/-- The lexer with the number `n` reads from a feed that ends at the position `m`, and can make at most `b` pulls. -/
structure Closes (n m b : Nat) (s : Session φ) : Prop where
  supplied : s.Supplied
  lexer : ∃ l, s.lexer? n = some l ∧ l.intake.feed.EndsAt m ∧ l.intake.budget m ≤ b

namespace Closes

omit [Judge φ] in
/-- What was done before a step is counted no more. -/
private theorem solvent (h : s.lexer? n = some l) (hm : l.intake.feed.EndsAt m) (hb : l.intake.budget m ≤ b) :
    l.Solvent m b := by
  obtain ⟨l₀, -, hrecord⟩ := lexer?_eq_some_iff.1 h
  have hpulls : l.intake.pulls = 0 := by
    rw [← hrecord]
    rfl
  exact ⟨hm, by rw [hpulls, Nat.zero_add]; exact hb⟩

private theorem supplied_step (h : Closes n m b s) (patience : Nat) (step : Step φ) :
    (s.step patience step).2.Supplied := by
  obtain ⟨hfactory, -, hfeed⟩ := s.feed_step patience step
  intro hs
  rw [hfactory] at hs
  exact hfeed hs (.inl (h.supplied hs))

private theorem call (h : Closes n m b s) (patience : Nat) (c : Call φ) :
    ∃ b', Closes n m b' (s.call patience n c).2 ∧ (s.call patience n c).1.events.countP Event.isPull + b' ≤ b ∧
      (0 < patience → (Step.call n c).isAdvance n = true → b' ≤ b - 1) := by
  obtain ⟨l, hl, hm, hb⟩ := h.lexer
  have hsolvent : (l.call patience c).2.Solvent m b :=
    Lexer.Solvent.stable.of_call (fun _ _ => trivial) (solvent hl hm hb)
  have hcount : (l.call patience c).2.events.countP Event.isPull = (l.call patience c).2.intake.pulls :=
    List.countP_reverse
  refine ⟨(l.call patience c).2.intake.budget m, ⟨h.supplied_step patience (.call n c), _, lexer?_call hl patience c,
    hsolvent.endsAt, Nat.le_refl _⟩, ?_, fun hp hc => ?_⟩
  · simp only [call_of_lexer? hl, hcount]
    exact hsolvent.spent
  · cases c with
    | advance =>
      have hle := (l.advance_advances patience).budget_le hm fun _ => hp
      exact Nat.le_trans hle (Nat.sub_le_sub_right hb 1)
    | _ => cases hc

private theorem other (h : Closes n m b s) (patience : Nat) {step : Step φ} (hn : s.subject step ≠ n) :
    Closes n m b (s.step patience step).2 := by
  obtain ⟨l, hl, hm, hb⟩ := h.lexer
  obtain ⟨l', hl', honward, hx⟩ := lexer?_step_of_ne h.supplied hl patience hn
  exact ⟨h.supplied_step patience step, l', hl', honward.endsAt hm, Nat.le_trans (honward.budget_le hx) hb⟩

private theorem step (h : Closes n m b s) (patience : Nat) (step : Step φ) :
    ∃ b', Closes n m b' (s.step patience step).2 ∧
      (own n ((s.step patience step).1.events.map (s.subject step, ·))).countP Event.isPull + b' ≤ b ∧
      (0 < patience → step.isAdvance n = true → b' ≤ b - 1) := by
  by_cases hn : s.subject step = n
  · cases step with
    | lex input =>
      -- A new lexer takes a number of its own.
      obtain ⟨l, hl, -⟩ := h.lexer
      obtain ⟨l₀, hl₀, -⟩ := lexer?_eq_some_iff.1 hl
      obtain ⟨hlt, -⟩ := Array.getElem?_eq_some_iff.1 hl₀
      exact absurd hn (Nat.ne_of_gt hlt)
    | call k c =>
      obtain rfl : k = n := hn
      simp only [Session.step, subject, own_map_self]
      exact h.call patience c
  · refine ⟨b, h.other patience hn, ?_, fun _ hc => ?_⟩
    · apply Nat.le_of_eq
      rw [own_map_of_ne (Ne.symm hn), List.countP_nil, Nat.zero_add]
    · cases step with
      | lex => cases hc
      | call k c =>
        cases c with
        | advance => exact absurd (eq_of_beq hc) hn
        | _ => cases hc

theorem run (h : Closes n m b s) (patience : Nat) (steps : List (Step φ)) :
    ∃ b', Closes n m b' (s.run patience steps).2 ∧ (own n (s.trace patience steps)).countP Event.isPull + b' ≤ b ∧
      (0 < patience → b' ≤ b - steps.countP (Step.isAdvance n)) := by
  induction steps generalizing s b with
  | nil => exact ⟨b, h, by simp [trace, own], fun _ => Nat.le_refl _⟩
  | cons step steps ih =>
    obtain ⟨b', h', hpaid, hadvance⟩ := h.step patience step
    obtain ⟨b'', h'', hpaid', hadvance'⟩ := ih h'
    refine ⟨b'', h'', ?_, fun hp => ?_⟩
    · rw [trace_cons, own_append, List.countP_append]
      omega
    · have hrest := hadvance' hp
      rw [List.countP_cons]
      cases hs : step.isAdvance n with
      | false =>
        simp only [Bool.false_eq_true, ↓reduceIte]
        omega
      | true =>
        have hfirst := hadvance hp hs
        simp only [↓reduceIte]
        omega

end Closes

/-! ### The lexers of a factory -/

private theorem noticed_lasts (patience : Nat) (f : Factory φ) : Lasts patience f fun _ l => l.Noticed where
  made _ hl := .of_create hl
  lent _ _ hl := hl
  stable _ := Lexer.Noticed.stable

/-- Every lexer of a session notices its end, and has its feed. -/
private theorem lexer?_made {f : Factory φ} {patience : Nat} {before : List (Step φ)}
    (h : ((start f).run patience before).2.lexer? n = some l) :
    ((start f).run patience before).2.Supplied ∧ l.Noticed := by
  have u := (noticed_lasts patience f).run before
  obtain ⟨l₀, hl₀, rfl⟩ := lexer?_eq_some_iff.1 h
  obtain ⟨hn, -⟩ := Array.getElem?_eq_some_iff.1 hl₀
  rw [u.size_eq] at hn
  have hnoticed : l₀.Noticed := u.holds (List.getElem?_eq_getElem hn) hl₀
  refine ⟨fun hs => ?_, hnoticed⟩
  rw [u.factory_eq] at hs
  exact u.feed_isSome hs hl₀

/-- A lexer whose feed has `left` more items does not lose a patience of more than so many, whatever it does, and does
the same with more patience; it makes at most one pull more, whatever is done in its session, and is at its end after as
many advances, failed ones too. On any feed, the loop over pulls stops, with patience enough, exactly if some item to
come is not rejected, and then at the first of these. -/
theorem comes_to_end (f : Factory φ) (patience : Nat) (before : List (Step φ)) :
    let s := ((start f).run patience before).2
    (∀ n l left, s.lexer? n = some l → l.intake.feed.EndsAt (l.intake.feed.taken + left) →
      (∀ c q, left < q → (s.call q n c).1.result ≠ .error .impatient ∧ s.call q n c = s.call (left + 1) n c) ∧
      ∀ q after, (own n (s.trace q after)).countP Event.isPull ≤ left + 1 ∧
        (0 < q → left < after.countP (Step.isAdvance n) →
          ∃ l', (s.run q after).2.lexer? n = some l' ∧ l'.intake.exhausted = true)) ∧
    ∀ (i : Intake φ) (view : Option View), i.exhausted = false →
      ((∃ q, (i.next view q).1 ≠ .error .impatient) ↔ ∃ k, (i.fates view k).1.result? i.eof ≠ none) ∧
      ∀ k r, (∀ j < k, (i.fates view j).1.result? i.eof = none) → (i.fates view k).1.result? i.eof = some r →
        ∀ q, k < q → i.next view q = i.next view (k + 1) ∧ (i.next view q).1 = r ∧
          (i.next view q).2.feed.taken = i.feed.taken + k + 1 := by
  intro s
  refine ⟨fun n l left hl hm => ?_, fun i view hi => ⟨Intake.next_stops_iff hi, fun k r hbefore hr q hq =>
    Intake.next_of_result hi hbefore hr hq⟩⟩
  obtain ⟨hsupplied, hnoticed⟩ := lexer?_made hl
  have hbudget : l.intake.budget (l.intake.feed.taken + left) ≤ left + 1 := by
    unfold Intake.budget
    split <;> omega
  have hbounded : l.Bounded (l.intake.feed.taken + left) (left + 1) (left + 1) :=
    ⟨hnoticed, Closes.solvent hl hm hbudget, hbudget⟩
  refine ⟨fun c q hq => ?_, fun q after => ?_⟩
  · obtain ⟨hne, -, hmore⟩ := Lexer.calm_call (Nat.le_refl _) (Nat.succ_le_of_lt hq) c l hbounded
    have hmore : l.call q c = l.call (left + 1) c := hmore
    have hcall : s.call q n c = s.call (left + 1) n c := by rw [call_of_lexer? hl, call_of_lexer? hl, hmore]
    exact ⟨by rw [hcall, call_of_lexer? hl]; exact hne, hcall⟩
  · obtain ⟨b', ⟨-, l', hl', -, hb'⟩, hpaid, hadvance⟩ := Closes.run ⟨hsupplied, l, hl, hm, hbudget⟩ q after
    refine ⟨Nat.le_trans (Nat.le_add_right _ b') hpaid, fun hp hcount => ⟨l', hl', ?_⟩⟩
    have hnone : b' = 0 := by
      have hle := hadvance hp
      omega
    exact Intake.budget_eq_zero_iff.1 (Nat.le_zero.1 (hnone ▸ hb'))

/-- Of a feed in common four items are left, with one that fails and one that is no token, to a lexer that keeps every
second token: five pulls are enough for it, also if another lexer takes some of the items. -/
theorem comes_to_end_of_four_left :
    let word (value : String) (index : Nat) : Pull := .item (.token ⟨"word", value, index, none⟩)
    let stream := Feed.ofList [word "ab" 0, word "cd" 3, .fail (.raised "lost"), word "ef" 6, .item .nothing,
      word "gh" 9]
    let f : Factory Filter :=
      { tokenizer := fun _ => .ok stream, shared := true, filter := some (.ofKind "every" (.every 2 0)) }
    let s := ((start f).run 9 [.lex "ab cd ef gh"]).2
    ∃ l, s.lexer? 0 = some l ∧ l.intake.feed.taken = 2 ∧
      (∀ c, (s.call 5 0 c).1.result ≠ .error .impatient) ∧
      (∀ after, (own 0 (s.trace 5 after)).countP Event.isPull ≤ 5) ∧
      let steps : List (Step Filter) := .call 0 .advance :: .lex "ab cd ef gh" :: .replicate 4 (.call 0 .advance)
      ∃ l', (s.run 5 steps).2.lexer? 0 = some l' ∧ l'.intake.exhausted = true := by
  intro word stream f s
  obtain ⟨l, hl, hfeed⟩ : ∃ l, s.lexer? 0 = some l ∧ l.intake.feed = ⟨stream.outcome, 2⟩ := ⟨_, rfl, rfl⟩
  have ends : l.intake.feed.EndsAt (l.intake.feed.taken + 4) := by
    rw [hfeed]
    intro k hk
    rw [Feed.outcome_ofList, List.getElem?_eq_none hk]
    rfl
  have hs : ((start f).run 9 [.lex "ab cd ef gh"]).2 = s := rfl
  have h := comes_to_end f 9 [.lex "ab cd ef gh"]
  rw [hs] at h
  clear_value s
  obtain ⟨hcall, hafter⟩ := h.1 0 l 4 hl ends
  refine ⟨l, hl, by rw [hfeed], fun c => (hcall c 5 (by decide)).1, fun after => (hafter 5 after).1, ?_⟩
  intro steps
  exact (hafter 5 steps).2 (by decide) (by decide)

end Session

end Lookahead
