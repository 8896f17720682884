import Lookahead.Proofs.Failing

/-!
# Where the loop over pulls stops

What becomes of the items to come can be told one after the other (`Intake.fates`): the filter that judges one of them
is the filter as the items before left it. The loop over pulls stops at the first item that is not rejected, and with
its answer (`Intake.next_of_result`); if there is none, no patience is enough (`Intake.next_stops_iff`).
-/

namespace Lookahead

/-- The answer of a loop that stops at an item, if the loop stops there; `eof` is the token at the end. -/
def Fate.result? (eof : Token) : Fate → Option (Except Halt Token)
  | ended => some (.ok eof)
  | lost f => some (.error (.failed f))
  | kept t => some (.ok t)
  | rejected _ => none

theorem Fate.ne_impatient_of_result {fate : Fate} {eof : Token} {r : Except Halt Token}
    (h : fate.result? eof = some r) : r ≠ .error .impatient := by
  cases fate <;> cases h <;> nofun

variable {φ : Type} [Judge φ]

/-- What becomes of an item under a filter, and the filter after it. -/
def Pull.settle (s : Source) (view : Option View) (p : Option φ) (pull : Pull) : Fate × Option φ :=
  match pull.read s with
  | .error f => (.lost f, p)
  | .ok none => (.ended, p)
  | .ok (some t) => (.ofVerdict t (Judge.answer view p t).1, (Judge.answer view p t).2)

namespace Intake

/-- What becomes of the item that is `k` places ahead, and the filter after it, if all items before it are judged. -/
def fates (i : Intake φ) (view : Option View) : Nat → Fate × Option φ
  | 0 => (i.feed.outcome i.feed.taken).settle i.source view i.filter
  | k + 1 => (i.feed.outcome (i.feed.taken + (k + 1))).settle i.source view (fates i view k).2

variable {view : Option View} {i j : Intake φ} {fate : Fate}

theorem Draws.fate_eq (d : Draws view i fate j) : i.fates view 0 = (fate, j.filter) := by
  have hread : (i.feed.outcome i.feed.taken).read i.source = i.upcoming := rfl
  have hjudged : ∀ {t : Token} {v : Except Failure Bool} {j : Intake φ}, i.onward.judge view t = (v, j) →
      Judge.answer view i.filter t = (v, j.filter) := fun hj => judge_answer (i := i.onward) hj
  unfold fates Pull.settle
  rw [hread]
  cases d with
  | ended h => rw [h]; rfl
  | unread h => rw [h]; rfl
  | unjudged h hj => rw [h]; simp only [hjudged hj]; rfl
  | rejected h hj => rw [h]; simp only [hjudged hj]; rfl
  | kept h hj => rw [h]; simp only [hjudged hj]; rfl

/-- Behind the first item, the others are one place nearer. -/
theorem Draws.fates_eq (d : Draws view i fate j) (k : Nat) : j.fates view k = i.fates view (k + 1) := by
  have htaken : ∀ n, j.feed.taken + n = i.feed.taken + (n + 1) := by
    intro n
    rw [d.feed_eq, Feed.next_snd_taken]
    omega
  have houtcome : j.feed.outcome = i.feed.outcome := by rw [d.feed_eq, Feed.next_snd_outcome]
  induction k with
  | zero => rw [fates, fates, d.fate_eq, houtcome, d.source_eq, ← htaken 0, Nat.add_zero]
  | succ k ih => rw [fates, fates, ih, houtcome, d.source_eq, htaken]

/-- One pull of the loop. -/
private theorem next_eq_draw (hi : i.exhausted = false) (patience : Nat) :
    i.next view (patience + 1) =
      match i.draw view with
      | (.ended, j) => (.ok j.eof, j)
      | (.lost f, j) => (.error (.failed f), j)
      | (.kept t, j) => (.ok t, j)
      | (.rejected _, j) => j.next view patience := by
  conv => lhs; unfold next
  rw [hi]
  rfl

/-- The loop stops at the first item, if that is not rejected. -/
private theorem next_of_first (hi : i.exhausted = false) {r : Except Halt Token}
    (hr : (i.fates view 0).1.result? i.eof = some r) (patience : Nat) :
    i.next view (patience + 1) = (r, (i.draw view).2) := by
  have d := draws view i
  rw [next_eq_draw hi]
  rcases hd : i.draw view with ⟨fate, j⟩
  rw [hd] at d
  have heof : j.eof = i.eof := congrArg Token.eof d.source_eq
  rw [d.fate_eq, ← heof] at hr
  cases fate with
  | rejected t => cases hr
  | _ =>
    obtain rfl := Option.some.inj hr
    rfl

/-- The loop goes on behind the first item, if that is rejected. -/
private theorem next_of_rejected (hi : i.exhausted = false) (hr : (i.fates view 0).1.result? i.eof = none) :
    ∃ j : Intake φ, (∀ patience, i.next view (patience + 1) = j.next view patience) ∧ j.exhausted = false ∧
      j.eof = i.eof ∧ j.feed.taken = i.feed.taken + 1 ∧ ∀ k, j.fates view k = i.fates view (k + 1) := by
  have d := draws view i
  rcases hd : i.draw view with ⟨fate, j⟩
  rw [hd] at d
  have hx := d.exhausted_eq hi
  rw [d.fate_eq] at hr
  cases fate with
  | rejected t =>
    refine ⟨j, fun patience => ?_, by simpa using hx, congrArg Token.eof d.source_eq, ?_, d.fates_eq⟩
    · rw [next_eq_draw hi, hd]
    · rw [d.feed_eq, Feed.next_snd_taken]
  | _ => cases hr

/-- The loop loses patience exactly if it is given no more of it than there are items that are rejected. -/
theorem next_eq_impatient_iff (hi : i.exhausted = false) (patience : Nat) :
    (i.next view patience).1 = .error .impatient ↔ ∀ k < patience, (i.fates view k).1.result? i.eof = none := by
  induction patience generalizing i with
  | zero => simp [next, hi]
  | succ n ih =>
    rw [Nat.forall_lt_succ_left]
    cases hr : (i.fates view 0).1.result? i.eof with
    | some r => simp [next_of_first hi hr, Fate.ne_impatient_of_result hr]
    | none =>
      obtain ⟨j, hnext, hopen, heof, -, hfates⟩ := next_of_rejected hi hr
      simp [hnext, ih hopen, heof, hfates]

/-- The loop stops at the first item that is not rejected, with the answer for this item, whatever more of patience is
given. -/
theorem next_of_result (hi : i.exhausted = false) {k : Nat} {r : Except Halt Token}
    (hbefore : ∀ j < k, (i.fates view j).1.result? i.eof = none) (hr : (i.fates view k).1.result? i.eof = some r)
    {patience : Nat} (hp : k < patience) :
    i.next view patience = i.next view (k + 1) ∧ (i.next view patience).1 = r ∧
      (i.next view patience).2.feed.taken = i.feed.taken + k + 1 := by
  induction k generalizing i patience with
  | zero =>
    obtain ⟨n, rfl⟩ := Nat.exists_eq_succ_of_ne_zero (Nat.ne_of_gt hp)
    rw [Nat.succ_eq_add_one, next_of_first hi hr, next_of_first hi hr]
    refine ⟨rfl, rfl, ?_⟩
    rw [(draws view i).feed_eq, Feed.next_snd_taken, Nat.add_zero]
  | succ k ih =>
    obtain ⟨n, rfl⟩ := Nat.exists_eq_succ_of_ne_zero (Nat.ne_of_gt (Nat.lt_of_le_of_lt (Nat.zero_le _) hp))
    obtain ⟨j, hnext, hopen, heof, hpulled, hfates⟩ := next_of_rejected hi (hbefore 0 (Nat.succ_pos k))
    have hlater : ∀ m < k, (j.fates view m).1.result? j.eof = none := by
      intro m hm
      rw [hfates, heof]
      exact hbefore (m + 1) (Nat.succ_lt_succ hm)
    have hstop : (j.fates view k).1.result? j.eof = some r := by rw [hfates, heof]; exact hr
    obtain ⟨hsame, hanswer, htaken⟩ := ih hopen hlater hstop (Nat.lt_of_succ_lt_succ hp)
    rw [Nat.succ_eq_add_one, hnext, hnext]
    refine ⟨hsame, hanswer, ?_⟩
    rw [htaken, hpulled]
    omega

/-- The loop stops, with patience enough, exactly if some item to come is not rejected. -/
theorem next_stops_iff (hi : i.exhausted = false) :
    (∃ patience, (i.next view patience).1 ≠ .error .impatient) ↔ ∃ k, (i.fates view k).1.result? i.eof ≠ none := by
  constructor
  · rintro ⟨patience, h⟩
    refine Classical.byContradiction fun hnone => h ?_
    rw [next_eq_impatient_iff hi]
    exact fun k _ => Classical.byContradiction fun hk => hnone ⟨k, hk⟩
  · rintro ⟨k, hk⟩
    refine ⟨k + 1, fun h => hk ?_⟩
    exact (next_eq_impatient_iff hi (k + 1)).1 h k (Nat.lt_succ_self k)

/-- If the loop stops, more patience changes nothing. -/
theorem next_of_le {n m : Nat} (h : (i.next view n).1 ≠ .error .impatient) (hle : n ≤ m) :
    i.next view m = i.next view n := by
  by_cases hi : i.exhausted = true
  · rw [next_of_exhausted hi, next_of_exhausted hi]
  · rw [Bool.not_eq_true] at hi
    induction n generalizing i m with
    | zero => exact absurd (by simp [next, hi]) h
    | succ n ih =>
      obtain ⟨m, rfl⟩ := Nat.exists_eq_succ_of_ne_zero (Nat.ne_of_gt (Nat.lt_of_lt_of_le (Nat.succ_pos n) hle))
      cases hr : (i.fates view 0).1.result? i.eof with
      | some r => rw [Nat.succ_eq_add_one, next_of_first hi hr, next_of_first hi hr]
      | none =>
        obtain ⟨j, hnext, hopen, -⟩ := next_of_rejected hi hr
        rw [hnext] at h
        rw [Nat.succ_eq_add_one, hnext, hnext]
        exact ih h (Nat.le_of_succ_le_succ hle) hopen

end Intake

end Lookahead
