import Lookahead.Intake

/-!
# Pulling

What one pull of an intake can do (`Intake.Draws`), and what the loop over pulls can do (`Intake.Fetches`), as relations
with one rule per case; `Intake.draws` and `Intake.fetches` say that `draw` and `next` follow the rules. An argument
about the loop is an induction over `Fetches`.
-/

namespace Lookahead

/-- What the answer to a pull means for a reader of a text: a token, no more tokens, or a failure. -/
def Pull.read (s : Source) : Pull → Except Failure (Option Token)
  | .stop => .ok none
  | .fail f => .error f
  | .item raw => raw.convert (some s)

namespace Event

variable {φ : Type}

/-- Something that only pulling does. -/
def isDraw : Event φ → Bool
  | judged _ _ _ => true
  | pulled _ _ => true
  | reachedEnd _ => true
  | _ => false

/-- The token that a filter was asked about. -/
def question? : Event φ → Option Token
  | judged _ t _ => some t
  | _ => none

/-- The token that was handed out by advancing. -/
def consumed? : Event φ → Option Token
  | consumed t => some t
  | _ => none

/-- The filter that was installed. -/
def installed? : Event φ → Option (Option φ)
  | filterSet f => some f
  | _ => none

theorem consumed?_of_isDraw {e : Event φ} (h : e.isDraw = true) : e.consumed? = none := by
  revert h
  cases e <;> simp [isDraw, consumed?]

/-- What is drawn and filtered away is not handed out. -/
theorem filterMap_consumed?_of_isDraw {drawn : List (Event φ)} (h : ∀ e ∈ drawn, e.isDraw = true) :
    drawn.filterMap consumed? = [] :=
  List.filterMap_eq_nil_iff.2 fun e he => consumed?_of_isDraw (h e he)

theorem installed?_of_isDraw {e : Event φ} (h : e.isDraw = true) : e.installed? = none := by
  revert h
  cases e <;> simp [isDraw, installed?]

end Event

namespace Intake

variable {φ : Type}

/-- The latest events last. -/
def events (i : Intake φ) : List (Event φ) := i.record.reverse

/-- What the next pull means. -/
def upcoming (i : Intake φ) : Except Failure (Option Token) := i.feed.next.1.read i.source

/-- The intake after asking the feed for an item, which is yet to be looked at. -/
def onward (i : Intake φ) : Intake φ := { i with feed := i.feed.next.2 }

/-! ### Fields of changed intakes -/

section Fields

variable (i : Intake φ) (e : Event φ) (f : φ)

@[simp] theorem note_source : (i.note e).source = i.source := rfl

@[simp] theorem note_feed : (i.note e).feed = i.feed := rfl

@[simp] theorem note_exhausted : (i.note e).exhausted = i.exhausted := rfl

@[simp] theorem note_filter : (i.note e).filter = i.filter := rfl

@[simp] theorem note_record : (i.note e).record = e :: i.record := rfl

@[simp] theorem putFilter_source : (i.putFilter f).source = i.source := by unfold putFilter; split <;> rfl

@[simp] theorem putFilter_feed : (i.putFilter f).feed = i.feed := by unfold putFilter; split <;> rfl

@[simp] theorem putFilter_exhausted : (i.putFilter f).exhausted = i.exhausted := by
  unfold putFilter; split <;> rfl

@[simp] theorem putFilter_filter : (i.putFilter f).filter = some f := by
  unfold putFilter; split <;> simp [filter, *]

@[simp] theorem putFilter_record : (i.putFilter f).record = i.record := by unfold putFilter; split <;> rfl

@[simp] theorem onward_exhausted : i.onward.exhausted = i.exhausted := rfl

@[simp] theorem onward_filter : i.onward.filter = i.filter := rfl

@[simp] theorem onward_record : i.onward.record = i.record := rfl

end Fields

variable [Judge φ]

/-! ### A verdict -/

theorem judge_of_none {i : Intake φ} (h : i.filter = none) (view : Option View) (t : Token) :
    i.judge view t = (.ok true, i) := by
  unfold judge; rw [h]

theorem judge_of_some {i : Intake φ} {f : φ} (h : i.filter = some f) (view : Option View) (t : Token) :
    i.judge view t = ((Judge.judge f view t).1,
      (i.putFilter (Judge.judge f view t).2).note (.judged f t (Judge.judge f view t).1)) := by
  unfold judge; rw [h]

/-- A verdict changes nothing but the state of the filter, and records at most that it was given. -/
theorem judge_frame {i j : Intake φ} {view : Option View} {t : Token} {v : Except Failure Bool}
    (h : i.judge view t = (v, j)) :
    j.source = i.source ∧ j.feed = i.feed ∧ j.exhausted = i.exhausted ∧
      ∃ asked, (∀ e ∈ asked, ∃ f, e = .judged f t v) ∧ j.record = asked ++ i.record := by
  cases hf : i.filter with
  | none =>
    rw [judge_of_none hf] at h
    obtain ⟨-, rfl⟩ := Prod.mk.inj h
    exact ⟨rfl, rfl, rfl, [], by simp, rfl⟩
  | some f =>
    rw [judge_of_some hf] at h
    obtain ⟨rfl, rfl⟩ := Prod.mk.inj h
    exact ⟨by simp, by simp, by simp, [.judged f t (Judge.judge f view t).1], by simp, by simp⟩

/-! ### One pull -/

/-- What one pull can do. -/
inductive Draws (view : Option View) (i : Intake φ) : Fate → Intake φ → Prop
  | ended (h : i.upcoming = .ok none) :
    Draws view i .ended (i.onward.note (.pulled i.feed.taken .ended)).finish
  | unread {f : Failure} (h : i.upcoming = .error f) :
    Draws view i (.lost f) (i.onward.note (.pulled i.feed.taken (.lost f)))
  | unjudged {t : Token} {f : Failure} {j : Intake φ} (h : i.upcoming = .ok (some t))
    (hj : i.onward.judge view t = (.error f, j)) :
    Draws view i (.lost f) (j.note (.pulled i.feed.taken (.lost f)))
  | rejected {t : Token} {j : Intake φ} (h : i.upcoming = .ok (some t))
    (hj : i.onward.judge view t = (.ok false, j)) :
    Draws view i (.rejected t) (j.note (.pulled i.feed.taken (.rejected t)))
  | kept {t : Token} {j : Intake φ} (h : i.upcoming = .ok (some t))
    (hj : i.onward.judge view t = (.ok true, j)) :
    Draws view i (.kept t) (j.note (.pulled i.feed.taken (.kept t)))

private theorem settle_eq (i : Intake φ) (view : Option View) (p : Pull) :
    i.settle view p = match p.read i.source with
      | .error f => (.lost f, i)
      | .ok none => (.ended, i)
      | .ok (some t) =>
        match i.judge view t with
        | (.error f, i) => (.lost f, i)
        | (.ok true, i) => (.kept t, i)
        | (.ok false, i) => (.rejected t, i) := by
  cases p <;> rfl

theorem draw_eq (i : Intake φ) (view : Option View) :
    i.draw view =
      let (fate, j) := i.onward.settle view i.feed.next.1
      let j := j.note (.pulled i.feed.taken fate)
      match fate with
      | .ended => (.ended, j.finish)
      | fate => (fate, j) := rfl

theorem draws (view : Option View) (i : Intake φ) : Draws view i (i.draw view).1 (i.draw view).2 := by
  rw [draw_eq, settle_eq]
  cases hu : i.upcoming with
  | error f =>
    rw [show i.feed.next.1.read i.onward.source = .error f from hu]
    exact .unread hu
  | ok t? =>
    cases t? with
    | none =>
      rw [show i.feed.next.1.read i.onward.source = .ok none from hu]
      exact .ended hu
    | some t =>
      rw [show i.feed.next.1.read i.onward.source = .ok (some t) from hu]
      dsimp only
      rcases hj : i.onward.judge view t with ⟨f | b, j⟩
      · exact .unjudged hu hj
      · cases b with
        | false => exact .rejected hu hj
        | true => exact .kept hu hj

/-- What a pull can do is what it does. -/
theorem Draws.eq_draw {view : Option View} {i j : Intake φ} {fate : Fate} (d : Draws view i fate j) :
    i.draw view = (fate, j) := by
  have hread : i.feed.next.1.read i.onward.source = i.upcoming := rfl
  rw [draw_eq, settle_eq, hread]
  cases d with
  | ended h => rw [h]
  | unread h => rw [h]
  | unjudged h hj => rw [h]; simp only [hj]
  | rejected h hj => rw [h]; simp only [hj]
  | kept h hj => rw [h]; simp only [hj]

namespace Draws

variable {view : Option View} {i j : Intake φ} {fate : Fate}

theorem source_eq (d : Draws view i fate j) : j.source = i.source := by
  cases d with
  | ended h => rfl
  | unread h => rfl
  | unjudged h hj => exact (judge_frame hj).1
  | rejected h hj => exact (judge_frame hj).1
  | kept h hj => exact (judge_frame hj).1

theorem feed_eq (d : Draws view i fate j) : j.feed = i.feed.next.2 := by
  cases d with
  | ended h => rfl
  | unread h => rfl
  | unjudged h hj => exact (judge_frame hj).2.1
  | rejected h hj => exact (judge_frame hj).2.1
  | kept h hj => exact (judge_frame hj).2.1

theorem exhausted_eq (d : Draws view i fate j) (h : i.exhausted = false) :
    j.exhausted = decide (fate = .ended) := by
  cases d with
  | ended h => rfl
  | unread => simpa using h
  | unjudged _ hj => simpa using (judge_frame hj).2.2.1.trans h
  | rejected _ hj => simpa using (judge_frame hj).2.2.1.trans h
  | kept _ hj => simpa using (judge_frame hj).2.2.1.trans h

/-- The events of a pull: at most one question, then the pull itself, and then perhaps the end. -/
theorem record_eq (d : Draws view i fate j) :
    ∃ asked : List (Event φ), (∀ e ∈ asked, ∃ f t v, e = .judged f t v) ∧
      j.record = (if fate = .ended then [.reachedEnd i.source.size] else []) ++
        .pulled i.feed.taken fate :: (asked ++ i.record) := by
  cases d with
  | ended h => exact ⟨[], by simp, rfl⟩
  | unread h => exact ⟨[], by simp, by simp⟩
  | unjudged h hj =>
    obtain ⟨-, -, -, asked, ha, hr⟩ := judge_frame hj
    exact ⟨asked, fun e he => ⟨_, _, _, (ha e he).choose_spec⟩, by simp [hr]⟩
  | rejected h hj =>
    obtain ⟨-, -, -, asked, ha, hr⟩ := judge_frame hj
    exact ⟨asked, fun e he => ⟨_, _, _, (ha e he).choose_spec⟩, by simp [hr]⟩
  | kept h hj =>
    obtain ⟨-, -, -, asked, ha, hr⟩ := judge_frame hj
    exact ⟨asked, fun e he => ⟨_, _, _, (ha e he).choose_spec⟩, by simp [hr]⟩

theorem drawn (d : Draws view i fate j) :
    ∃ drawn : List (Event φ), (∀ e ∈ drawn, e.isDraw = true) ∧ j.record = drawn ++ i.record := by
  obtain ⟨asked, ha, hr⟩ := d.record_eq
  refine ⟨(if fate = .ended then [.reachedEnd i.source.size] else []) ++ .pulled i.feed.taken fate :: asked, ?_,
    by rw [hr]; simp⟩
  intro e he
  rcases List.mem_append.1 he with he | he
  · split at he
    · rw [List.mem_singleton.1 he]
      rfl
    · cases he
  · rcases List.mem_cons.1 he with rfl | he
    · rfl
    · obtain ⟨f, t, v, rfl⟩ := ha e he
      rfl

theorem upcoming_of_kept {t : Token} (d : Draws view i (.kept t) j) : i.upcoming = .ok (some t) := by
  cases d with
  | kept h hj => exact h

end Draws

/-! ### The loop over pulls -/

/-- What asking for the next token can do, with a patience. -/
inductive Fetches (view : Option View) : Nat → Intake φ → Except Halt Token → Intake φ → Prop
  | exhausted {n : Nat} {i : Intake φ} (h : i.exhausted = true) : Fetches view n i (.ok i.eof) i
  | impatient {i : Intake φ} (h : i.exhausted = false) : Fetches view 0 i (.error .impatient) i
  | ended {n : Nat} {i j : Intake φ} (h : i.exhausted = false) (d : Draws view i .ended j) :
    Fetches view (n + 1) i (.ok j.eof) j
  | lost {n : Nat} {i j : Intake φ} {f : Failure} (h : i.exhausted = false) (d : Draws view i (.lost f) j) :
    Fetches view (n + 1) i (.error (.failed f)) j
  | kept {n : Nat} {i j : Intake φ} {t : Token} (h : i.exhausted = false) (d : Draws view i (.kept t) j) :
    Fetches view (n + 1) i (.ok t) j
  | rejected {n : Nat} {i j k : Intake φ} {t : Token} {r : Except Halt Token} (h : i.exhausted = false)
    (d : Draws view i (.rejected t) j) (rest : Fetches view n j r k) : Fetches view (n + 1) i r k

theorem fetches (view : Option View) (patience : Nat) (i : Intake φ) :
    Fetches view patience i (i.next view patience).1 (i.next view patience).2 := by
  induction patience generalizing i with
  | zero =>
    cases h : i.exhausted with
    | true => simpa [next, h] using .exhausted h
    | false => simpa [next, h] using .impatient h
  | succ n ih =>
    cases h : i.exhausted with
    | true => simpa [next, h] using .exhausted h
    | false =>
      have d := draws view i
      unfold next
      rcases hd : i.draw view with ⟨fate, j⟩
      rw [hd] at d
      simp only [h, Bool.false_eq_true, ↓reduceIte]
      cases fate with
      | ended => exact .ended h d
      | lost f => exact .lost h d
      | rejected t => exact .rejected h d (ih j)
      | kept t => exact .kept h d

theorem Fetches.eq_next {view : Option View} {n : Nat} {i j : Intake φ} {r : Except Halt Token}
    (h : Fetches view n i r j) : i.next view n = (r, j) := by
  induction h with
  | exhausted h => exact next_of_exhausted h view _
  | impatient h => simp [next, h]
  | ended h d => simp [next, h, d.eq_draw]
  | lost h d => simp [next, h, d.eq_draw]
  | kept h d => simp [next, h, d.eq_draw]
  | rejected h d _ ih =>
    rw [next, h, d.eq_draw]
    exact ih

namespace Fetches

variable {view : Option View} {n : Nat} {i j : Intake φ} {r : Except Halt Token}

theorem source_eq (h : Fetches view n i r j) : j.source = i.source := by
  induction h with
  | exhausted => rfl
  | impatient => rfl
  | ended _ d => exact d.source_eq
  | lost _ d => exact d.source_eq
  | kept _ d => exact d.source_eq
  | rejected _ d _ ih => exact ih.trans d.source_eq

theorem outcome_eq (h : Fetches view n i r j) : j.feed.outcome = i.feed.outcome := by
  induction h with
  | exhausted => rfl
  | impatient => rfl
  | ended _ d => rw [d.feed_eq]; rfl
  | lost _ d => rw [d.feed_eq]; rfl
  | kept _ d => rw [d.feed_eq]; rfl
  | rejected _ d _ ih => rw [ih, d.feed_eq]; rfl

theorem taken_le (h : Fetches view n i r j) : i.feed.taken ≤ j.feed.taken := by
  induction h with
  | exhausted => exact Nat.le_refl _
  | impatient => exact Nat.le_refl _
  | ended _ d => rw [d.feed_eq]; exact Nat.le_succ _
  | lost _ d => rw [d.feed_eq]; exact Nat.le_succ _
  | kept _ d => rw [d.feed_eq]; exact Nat.le_succ _
  | rejected _ d _ ih =>
    rw [d.feed_eq] at ih
    exact Nat.le_of_succ_le ih

/-- Before the end, asking for a token asks the feed. -/
theorem taken_lt (h : Fetches view n i r j) (hn : 0 < n) (hi : i.exhausted = false) :
    i.feed.taken < j.feed.taken := by
  cases h with
  | exhausted h => simp [hi] at h
  | impatient => cases hn
  | ended _ d => rw [d.feed_eq]; exact Nat.lt_succ_self _
  | lost _ d => rw [d.feed_eq]; exact Nat.lt_succ_self _
  | kept _ d => rw [d.feed_eq]; exact Nat.lt_succ_self _
  | rejected _ d rest =>
    have h := rest.taken_le
    rw [d.feed_eq] at h
    exact h

theorem record_eq (h : Fetches view n i r j) :
    ∃ drawn : List (Event φ), (∀ e ∈ drawn, e.isDraw = true) ∧ j.record = drawn ++ i.record := by
  induction h with
  | exhausted => exact ⟨[], by simp, rfl⟩
  | impatient => exact ⟨[], by simp, rfl⟩
  | ended _ d => exact d.drawn
  | lost _ d => exact d.drawn
  | kept _ d => exact d.drawn
  | rejected _ d _ ih =>
    obtain ⟨drawn, hd, hr⟩ := d.drawn
    obtain ⟨drawn', hd', hr'⟩ := ih
    refine ⟨drawn' ++ drawn, ?_, by rw [hr', hr, List.append_assoc]⟩
    exact fun e he => (List.mem_append.1 he).elim (hd' e) (hd e)

theorem eq_of_exhausted (h : Fetches view n i r j) (hi : i.exhausted = true) : r = .ok i.eof ∧ j = i := by
  cases h with
  | exhausted => exact ⟨rfl, rfl⟩
  | impatient h => simp [hi] at h
  | ended h => simp [hi] at h
  | lost h => simp [hi] at h
  | kept h => simp [hi] at h
  | rejected h => simp [hi] at h

theorem open_of (h : Fetches view n i r j) (hj : j.exhausted = false) : i.exhausted = false := by
  rw [← Bool.not_eq_true]
  intro hi
  rw [(h.eq_of_exhausted hi).2, hi] at hj
  cases hj

theorem exhausted_of_error {e : Halt} (h : Fetches view n i (.error e) j) : j.exhausted = false := by
  generalize hr : Except.error e = r at h
  induction h with
  | exhausted => cases hr
  | impatient h => exact h
  | ended => cases hr
  | lost h d => simpa using d.exhausted_eq h
  | kept => cases hr
  | rejected _ _ _ ih => exact ih hr

/-- A token is the one at the end, and then the intake is exhausted, or it was read off an answer of the feed. -/
theorem of_ok {t : Token} (h : Fetches view n i (.ok t) j) :
    (j.exhausted = true ∧ t = .eof i.source) ∨
      (j.exhausted = false ∧ ∃ k, i.feed.taken ≤ k ∧ j.feed.taken = k + 1 ∧
        (i.feed.outcome k).read i.source = .ok (some t)) := by
  generalize hr : Except.ok t = r at h
  induction h with
  | exhausted h => cases hr; exact .inl ⟨h, rfl⟩
  | impatient => cases hr
  | ended h d => cases hr; exact .inl ⟨by simpa using d.exhausted_eq h, by rw [eof, d.source_eq]⟩
  | lost => cases hr
  | kept h d =>
    cases hr
    exact .inr ⟨by simpa using d.exhausted_eq h, _, Nat.le_refl _, by rw [d.feed_eq]; rfl, d.upcoming_of_kept⟩
  | rejected _ d _ ih =>
    rcases ih hr with ⟨h, ht⟩ | ⟨h, k, hk, hj, ht⟩
    · exact .inl ⟨h, by rw [ht, d.source_eq]⟩
    · rw [d.feed_eq] at hk ht
      rw [d.source_eq] at ht
      exact .inr ⟨h, k, Nat.le_of_succ_le hk, hj, ht⟩

/-- Once the intake is exhausted, the token is the one at the end. -/
theorem eq_eof {t : Token} (h : Fetches view n i (.ok t) j) (hx : j.exhausted = true) : t = j.eof := by
  rcases h.of_ok with ⟨-, ht⟩ | ⟨hopen, -⟩
  · rw [ht, eof, h.source_eq]
  · exact absurd (hopen.symm.trans hx) Bool.false_ne_true

end Fetches

end Intake

end Lookahead
