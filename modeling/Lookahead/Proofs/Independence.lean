import Lookahead.Proofs.Sharing

/-!
# Lexers of one factory

If a factory makes a feed for each lexer, and its filter has no state, then its lexers have nothing in common: what the
steps on one lexer show is what they show if the steps on all other lexers are left out
(`Session.lexers_independent`). `Session.Apart` says that a session has nothing to lend but what its factory has, and
`Session.Mirrors` that a session with one lexer is where a session with many is, as far as that lexer goes; both are
kept by every step.
-/

namespace Lookahead

/-! ### The filter in common -/

namespace Intake

variable {φ : Type} [Judge φ] {view : Option View} {i j : Intake φ}

/-- A filter in common without a state is never changed, whichever filter is in force. -/
theorem judge_common (stateless : Judge.Stateless i.common) (view : Option View) (t : Token) :
    (i.judge view t).2.common = i.common := by
  rcases i with ⟨source, feed, common, _ | own, exhausted, record⟩
  · cases common with
    | none => rfl
    | some f => exact congrArg (fun x => some x.2) (stateless f rfl view t)
  · cases own <;> rfl

theorem Draws.common_eq {fate : Fate} (d : Draws view i fate j) (stateless : Judge.Stateless i.common) :
    j.common = i.common := by
  have hj : ∀ {v : Except Failure Bool} {k : Intake φ} {t : Token} (e : Event φ), i.onward.judge view t = (v, k) →
      (k.note e).common = i.common := by
    intro v k t e h
    have hc := judge_common (i := i.onward) stateless view t
    rwa [h] at hc
  cases d with
  | ended => rfl
  | unread => rfl
  | unjudged _ h => exact hj _ h
  | rejected _ h => exact hj _ h
  | kept _ h => exact hj _ h

theorem Fetches.common_eq {n : Nat} {r : Except Halt Token} (h : Fetches view n i r j)
    (stateless : Judge.Stateless i.common) : j.common = i.common := by
  induction h with
  | exhausted => rfl
  | impatient => rfl
  | ended _ d => exact d.common_eq stateless
  | lost _ d => exact d.common_eq stateless
  | kept _ d => exact d.common_eq stateless
  | rejected _ d _ ih =>
    have hc := d.common_eq stateless
    exact (ih (by rwa [hc])).trans hc

end Intake

namespace Lexer

variable {φ : Type} [Judge φ]

theorem common_carries {p : Option φ} (stateless : Judge.Stateless p) (patience : Nat) :
    Carries patience (fun l => l.intake.common = p) fun _ l => l.intake.common = p where
  stop _ h := h
  remark _ h := h
  onerror _ h := h
  become _ h := h
  advance {l l' r} ha h := by
    subst h
    cases ha with
    | moved hf => exact hf.common_eq stateless
    | halted hf => exact hf.common_eq stateless
  filter {l l' f r} hr h := by
    subst h
    have hj : ∀ {v : Except Failure Bool} {i : Intake φ}, (l.refiltered f).judge (some l.view) l.current = (v, i) →
        i.common = l.intake.common := by
      intro v i hj
      have hc := Intake.judge_common (i := l.refiltered f) stateless (some l.view) l.current
      rwa [hj] at hc
    cases hr with
    | atEnd => rfl
    | failed _ h => exact hj h
    | kept _ h => exact hj h
    | replaced _ h hf => exact (hf.common_eq (by rwa [hj h])).trans (hj h)
    | halted _ h hf => exact (hf.common_eq (by rwa [hj h])).trans (hj h)

theorem call_common {l : Lexer φ} (stateless : Judge.Stateless l.intake.common) (patience : Nat) (c : Call φ) :
    (l.call patience c).2.intake.common = l.intake.common :=
  meets_self.1 ((common_carries stateless patience).of_call (c := c) (.inr fun _ _ h => h) rfl)

theorem create_common {i : Intake φ} (stateless : Judge.Stateless i.common) (patience : Nat) (h : Handler φ) :
    (create patience i h).2.common = i.common := by
  have hf := Intake.fetches none patience (i.note (.created i.source.size))
  unfold create
  rcases hn : (i.note (.created i.source.size)).next none patience with ⟨e | t, j⟩
  · rw [hn] at hf
    exact hf.common_eq stateless
  · rw [hn] at hf
    exact hf.common_eq stateless

end Lexer

/-! ### The steps on one lexer -/

/-- The numbers of the lexers that the steps are about, if `made` lexers were asked for before. -/
def subjects {φ : Type} : Nat → List (Step φ) → List Nat
  | _, [] => []
  | made, .lex _ :: steps => made :: subjects (made + 1) steps
  | made, .call n _ :: steps => n :: subjects made steps

/-- Those of `xs` whose number is `n`. -/
def marked {α : Type} (n : Nat) : List Nat → List α → List α
  | m :: ms, x :: xs => if m = n then x :: marked n ms xs else marked n ms xs
  | _, _ => []

/-- The same step if there is one lexer only. -/
def Step.only {φ : Type} : Step φ → Step φ
  | lex input => lex input
  | call _ c => call 0 c

/-- The steps on one lexer, without all others. -/
def alone {φ : Type} (n : Nat) (steps : List (Step φ)) : List (Step φ) :=
  (marked n (subjects 0 steps) steps).map Step.only

/-- What a reply tells of its own step and its own lexer: the result, the lexer after the step, and the events of the
step. The counts in a reply are those of the session. -/
def Reply.seen {φ : Type} (r : Reply φ) : Except Halt Answer × Option (Lexer φ) × List (Event φ) :=
  (r.result, r.lexer, r.events)

namespace Session

variable {φ : Type}

/-- Nothing is lent in the session that the factory did not have from the start. -/
structure Apart (f : Factory φ) (s : Session φ) : Prop where
  factory_eq : s.factory = f
  filter_eq : s.filter = f.filter
  feed_eq : s.feed = none

theorem Apart.start (f : Factory φ) : Apart f (start f) := ⟨rfl, rfl, rfl⟩

theorem Apart.lend {f : Factory φ} {s : Session φ} (a : Apart f s) (own_feeds : f.shared = false) (i : Intake φ) :
    s.lend i = { i with common := f.filter, record := [] } := by
  simp [Session.lend, a.factory_eq, a.filter_eq, own_feeds]

theorem Apart.takeBack {f : Factory φ} {s : Session φ} (a : Apart f s) (own_feeds : f.shared = false) {i : Intake φ}
    (hi : i.common = f.filter) : Apart f (s.takeBack i) := by
  refine ⟨a.factory_eq, hi, ?_⟩
  simp [Session.takeBack, a.factory_eq, a.feed_eq, own_feeds]

variable [Judge φ]

theorem call_of_none {s : Session φ} {n : Nat} (h : s.lexers[n]?.join = none) (patience : Nat) (c : Call φ) :
    s.call patience n c = s.reply (.ok .done) none [] := by
  unfold Session.call
  rw [h]

theorem lexers_lex (s : Session φ) (patience : Nat) (input : String) :
    (s.lex patience input).2.lexers = s.lexers.push (s.lex patience input).1.lexer := by
  unfold lex
  cases s.supply input with
  | error g => rfl
  | ok feed =>
    dsimp only
    rcases Lexer.create patience { source := ⟨input⟩, feed, common := s.filter } s.factory.handler with ⟨e | l, i⟩
    · rfl
    · rfl

theorem size_call (s : Session φ) (patience n : Nat) (c : Call φ) :
    (s.call patience n c).2.lexers.size = s.lexers.size := by
  unfold call
  cases s.lexers[n]?.join with
  | none => rfl
  | some l => exact Array.size_setIfInBounds

/-- The counts of a session are those of the events of its steps. -/
theorem step_counts (patience : Nat) (s : Session φ) (step : Step φ) :
    let (r, s') := s.step patience step
    r.pulls = s.pulls + r.events.countP Event.isPull ∧ s'.pulls = r.pulls ∧
      r.judgements = s.judgements + r.events.countP Event.isJudgement ∧ s'.judgements = r.judgements := by
  cases step with
  | lex input =>
    simp only [Session.step, lex]
    cases s.supply input with
    | error g => simp [reply, add]
    | ok feed =>
      dsimp only
      rcases Lexer.create patience { source := ⟨input⟩, feed, common := s.filter } s.factory.handler with ⟨e | l, i⟩
      · simp [reply, add, takeBack]
      · simp [reply, add, takeBack]
  | call n c =>
    simp only [Session.step, call]
    cases s.lexers[n]?.join with
    | none => simp [reply]
    | some l => simp [reply, takeBack]

namespace Apart

variable {f : Factory φ} {s t : Session φ}

/-- What the making of a lexer shows does not depend on the steps before. -/
theorem seen_lex (a : Apart f s) (b : Apart f t) (patience : Nat) (input : String) :
    (s.lex patience input).1.seen = (t.lex patience input).1.seen := by
  have hs : s.supply input = t.supply input := by
    simp [supply, a.feed_eq, b.feed_eq, a.factory_eq, b.factory_eq]
  unfold lex
  rw [hs, a.filter_eq, b.filter_eq, a.factory_eq, b.factory_eq]
  cases t.supply input with
  | error g => rfl
  | ok feed =>
    dsimp only
    rcases Lexer.create patience { source := ⟨input⟩, feed, common := f.filter } f.handler with ⟨e | l, i⟩
    · rfl
    · rfl

theorem seen_call (a : Apart f s) (b : Apart f t) (own_feeds : f.shared = false) {n m : Nat}
    (h : t.lexers[m]?.join = s.lexers[n]?.join) (patience : Nat) (c : Call φ) :
    (s.call patience n c).1.seen = (t.call patience m c).1.seen := by
  cases hl : s.lexers[n]?.join with
  | none =>
    rw [call_of_none hl, call_of_none (h.trans hl)]
    rfl
  | some l =>
    rw [call_of_some (Option.join_eq_some_iff.1 hl), call_of_some (Option.join_eq_some_iff.1 (h.trans hl)),
      a.lend own_feeds, b.lend own_feeds]
    rfl

theorem step (a : Apart f s) (own_feeds : f.shared = false) (stateless : Judge.Stateless f.filter) (patience : Nat)
    (step : Step φ) : Apart f (s.step patience step).2 := by
  cases step with
  | lex input =>
    change Apart f (s.lex patience input).2
    unfold lex
    cases s.supply input with
    | error g => exact ⟨a.factory_eq, a.filter_eq, a.feed_eq⟩
    | ok feed =>
      have hc := Lexer.create_common (i := { source := ⟨input⟩, feed, common := s.filter })
        (by rw [a.filter_eq]; exact stateless) patience s.factory.handler
      dsimp only
      rcases hr : Lexer.create patience { source := ⟨input⟩, feed, common := s.filter } s.factory.handler with
        ⟨e | l, i⟩
      · rw [hr] at hc
        have b := a.takeBack own_feeds (hc.trans a.filter_eq)
        exact ⟨b.factory_eq, b.filter_eq, b.feed_eq⟩
      · rw [hr] at hc
        have b := a.takeBack own_feeds (hc.trans a.filter_eq)
        exact ⟨b.factory_eq, b.filter_eq, b.feed_eq⟩
  | call n c =>
    change Apart f (s.call patience n c).2
    cases hl : s.lexers[n]?.join with
    | none =>
      rw [call_of_none hl]
      exact a
    | some l =>
      rw [call_of_some (Option.join_eq_some_iff.1 hl), a.lend own_feeds]
      have hc := Lexer.call_common (l := { l with intake := { l.intake with common := f.filter, record := [] } })
        stateless patience c
      have b := a.takeBack own_feeds hc
      exact ⟨b.factory_eq, b.filter_eq, b.feed_eq⟩

theorem run (a : Apart f s) (own_feeds : f.shared = false) (stateless : Judge.Stateless f.filter) (patience : Nat)
    (steps : List (Step φ)) : Apart f (s.run patience steps).2 := by
  induction steps generalizing s with
  | nil => exact a
  | cons step steps ih => exact ih (a.step own_feeds stateless patience step)

end Apart

/-- The session `t` has made one lexer or none, and is where the session `s` is as far as the lexer with the number `n`
goes. -/
structure Mirrors (f : Factory φ) (n : Nat) (s t : Session φ) : Prop where
  apart : Apart f s
  alone : Apart f t
  size_eq : t.lexers.size = if n < s.lexers.size then 1 else 0
  lexer_eq : t.lexers[0]?.join = s.lexers[n]?.join

namespace Mirrors

variable {f : Factory φ} {n : Nat} {s t : Session φ}

omit [Judge φ] in
theorem start (f : Factory φ) (n : Nat) : Mirrors f n (start f) (start f) := by
  refine ⟨.start f, .start f, rfl, ?_⟩
  simp [Session.start]

variable (own_feeds : f.shared = false) (stateless : Judge.Stateless f.filter)
include own_feeds stateless

/-- A step on the lexer with the number `n` is made in both sessions, and shows the same. -/
theorem same (m : Mirrors f n s t) (patience : Nat) {step : Step φ} (hn : s.subject step = n) :
    (s.step patience step).1.seen = (t.step patience step.only).1.seen ∧
      Mirrors f n (s.step patience step).2 (t.step patience step.only).2 := by
  have a := m.apart.step own_feeds stateless patience step
  have b := m.alone.step own_feeds stateless patience step.only
  cases step with
  | lex input =>
    obtain rfl : s.lexers.size = n := hn
    have hsize : t.lexers.size = 0 := by simpa using m.size_eq
    have hseen := m.apart.seen_lex m.alone patience input
    have hlexer : (s.lex patience input).1.lexer = (t.lex patience input).1.lexer := congrArg (·.2.1) hseen
    have hs := lexers_lex s patience input
    have ht := lexers_lex t patience input
    refine ⟨hseen, a, b, ?_, ?_⟩
    · change (t.lex patience input).2.lexers.size = if _ < (s.lex patience input).2.lexers.size then 1 else 0
      rw [hs, ht]
      simp [hsize]
    · change (t.lex patience input).2.lexers[0]?.join = (s.lex patience input).2.lexers[_]?.join
      rw [hs, ht, hlexer]
      simp [← hsize]
  | call k c =>
    obtain rfl : k = n := hn
    refine ⟨m.apart.seen_call m.alone own_feeds m.lexer_eq patience c, a, b, ?_, ?_⟩
    · change (t.call patience 0 c).2.lexers.size = if _ < (s.call patience k c).2.lexers.size then 1 else 0
      rw [size_call, size_call]
      exact m.size_eq
    · change (t.call patience 0 c).2.lexers[0]?.join = (s.call patience k c).2.lexers[k]?.join
      cases hl : s.lexers[k]?.join with
      | none =>
        rw [call_of_none hl, call_of_none (m.lexer_eq.trans hl)]
        exact m.lexer_eq
      | some l =>
        have hs := Option.join_eq_some_iff.1 hl
        have ht := Option.join_eq_some_iff.1 (m.lexer_eq.trans hl)
        obtain ⟨hk, -⟩ := Array.getElem?_eq_some_iff.1 hs
        obtain ⟨h0, -⟩ := Array.getElem?_eq_some_iff.1 ht
        rw [call_of_some hs, call_of_some ht, m.apart.lend own_feeds, m.alone.lend own_feeds]
        simp [hk, h0]

/-- A step on another lexer changes nothing. -/
theorem other (m : Mirrors f n s t) (patience : Nat) {step : Step φ} (hn : s.subject step ≠ n) :
    Mirrors f n (s.step patience step).2 t := by
  refine ⟨m.apart.step own_feeds stateless patience step, m.alone, ?_, ?_⟩
  · cases step with
    | lex input =>
      have hn : s.lexers.size ≠ n := hn
      change _ = if n < (s.lex patience input).2.lexers.size then 1 else 0
      rw [lexers_lex, Array.size_push, m.size_eq]
      have hiff : n < s.lexers.size + 1 ↔ n < s.lexers.size := by omega
      simp only [hiff]
    | call k c =>
      change _ = if n < (s.call patience k c).2.lexers.size then 1 else 0
      rw [size_call]
      exact m.size_eq
  · rw [lexers_step s patience step (Ne.symm hn)]
    exact m.lexer_eq

theorem run (m : Mirrors f n s t) (patience : Nat) (steps : List (Step φ)) :
    let numbers := subjects s.lexers.size steps
    (marked n numbers (s.run patience steps).1).map Reply.seen =
      (t.run patience ((marked n numbers steps).map Step.only)).1.map Reply.seen := by
  induction steps generalizing s t with
  | nil => rfl
  | cons step steps ih =>
    have hnumbers : subjects s.lexers.size (step :: steps) =
        s.subject step :: subjects (s.step patience step).2.lexers.size steps := by
      cases step with
      | lex input =>
        change _ = _ :: subjects (s.lex patience input).2.lexers.size steps
        rw [lexers_lex, Array.size_push]
        rfl
      | call k c =>
        change _ = _ :: subjects (s.call patience k c).2.lexers.size steps
        rw [size_call]
        rfl
    intro numbers
    simp only [numbers, hnumbers, Session.run, marked]
    by_cases hn : s.subject step = n
    · obtain ⟨hseen, m'⟩ := m.same own_feeds stateless patience hn
      simp only [hn, ↓reduceIte, List.map_cons, Session.run]
      rw [hseen]
      exact congrArg _ (ih m')
    · simp only [hn, ↓reduceIte]
      exact ih (m.other own_feeds stateless patience hn)

end Mirrors

/-- The lexers of a factory that makes a feed for each of them, with a filter without a state, do not depend on each
other: each of them shows what it shows if the steps on the others are left out. A call changes no other lexer, and a
lexer that is made later is made as the first of all. The counts of a session add up what its steps show. -/
theorem lexers_independent {f : Factory φ} (own_feeds : f.shared = false) (stateless : Judge.Stateless f.filter)
    (patience : Nat) (steps : List (Step φ)) :
    let replies := ((start f).run patience steps).1
    let s := ((start f).run patience steps).2
    (∀ n, (marked n (subjects 0 steps) replies).map Reply.seen =
        ((start f).run patience (alone n steps)).1.map Reply.seen) ∧
      (∀ m c n, n ≠ m → (s.call patience m c).2.lexers[n]? = s.lexers[n]?) ∧
      (∀ input, (s.lex patience input).1.seen = ((start f).lex patience input).1.seen) ∧
      ∀ step, let (r, s') := s.step patience step
        r.pulls = s.pulls + r.events.countP Event.isPull ∧ s'.pulls = r.pulls ∧
          r.judgements = s.judgements + r.events.countP Event.isJudgement ∧ s'.judgements = r.judgements := by
  intro replies s
  refine ⟨fun n => (Mirrors.start f n).run own_feeds stateless patience steps, fun m c n hn => ?_, fun input => ?_,
    step_counts patience s⟩
  · exact lexers_step s patience (.call m c) hn
  · exact ((Apart.start f).run own_feeds stateless patience steps).seen_lex (.start f) patience input

/-- The filter and the handler of one lexer are replaced, and an attempt to make another one fails: the first lexer,
whose feed fails once, sees nothing of it. -/
theorem lexers_independent_of_two :
    let words : Tokenizer := fun input =>
      if input = "" then .error (.raised "nothing to read")
      else .ok (Feed.ofList [.item (.token ⟨"word", input, 0, none⟩), .item (.token ⟨"blank", " ", 2, none⟩),
        .fail (.raised "torn"), .item (.token ⟨"word", input, 3, none⟩)])
    let f : Factory Filter :=
      { tokenizer := words, filter := some (.ofKind "groups" (.groups ["word"])), handler := .collect }
    let steps : List (Step Filter) := [.lex "ab", .lex "", .lex "cd", .call 2 (.filter none), .call 0 .advance,
      .call 2 (.onerror .default), .call 0 (.expect "blank" none), .call 2 (.expect "blank" none), .call 0 .advance]
    let replies := ((start f).run 9 steps).1
    f.shared = false ∧ Judge.Stateless f.filter ∧
      (alone 0 steps).length = 4 ∧ replies.map (Except.isOk ·.result) =
        [true, false, true, true, false, true, true, false, true] ∧
      ∀ n, (marked n (subjects 0 steps) replies).map Reply.seen =
        ((start f).run 9 (alone n steps)).1.map Reply.seen := by
  intro words f steps replies
  have stateless : Judge.Stateless f.filter := Filter.stateless (f := .ofKind "groups" (.groups ["word"])) rfl
  exact ⟨rfl, stateless, rfl, by decide +kernel, (lexers_independent rfl stateless 9 steps).1⟩

end Session

end Lookahead
