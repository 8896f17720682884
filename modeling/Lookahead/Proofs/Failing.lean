import Lookahead.Proofs.EndOfInput
import Lookahead.Proofs.Stateless

/-!
# Failing operations

What is left of a lexer by a call during which the feed, the conversion of an item or a filter fails
(`Lexer.failing_call_frame`): the failure is what the call gives, and it may cost items of the feed, but no token of
the lexer. Which items are lost is a relation of what the feed gives and of the filter alone (`Loses` and
`Lexer.Fails`). Nothing of this holds of an expectation whose handler turns to the lexer, which may have moved on before
the failure, and may go on after it (`Lexer.failing_handler_moves`).
-/

namespace Lookahead

/-- The failure of a filter, or the one with which an item was lost. -/
def Event.failure? {φ : Type} : Event φ → Option Failure
  | judged _ _ (.error g) => some g
  | pulled _ (.lost g) => some g
  | _ => none

/-- The failures among events. -/
def failures {φ : Type} (es : List (Event φ)) : List Failure := es.filterMap Event.failure?

section Failures

variable {φ : Type}

@[simp] theorem failures_nil : failures ([] : List (Event φ)) = [] := rfl

@[simp] theorem failures_append (es es' : List (Event φ)) : failures (es ++ es') = failures es ++ failures es' :=
  List.filterMap_append

@[simp] theorem failures_reverse (es : List (Event φ)) : failures es.reverse = (failures es).reverse :=
  List.filterMap_reverse

theorem failures_cons_of_none {e : Event φ} (h : e.failure? = none) (es : List (Event φ)) :
    failures (e :: es) = failures es :=
  List.filterMap_cons_none h

theorem failures_cons_of_some {e : Event φ} {g : Failure} (h : e.failure? = some g) (es : List (Event φ)) :
    failures (e :: es) = g :: failures es :=
  List.filterMap_cons_some h

end Failures

namespace Call

variable {φ : Type}

/-- The filter that a call installs. -/
def filter? : Call φ → Option (Option φ)
  | filter f => some f
  | _ => none

/-- The call is one operation, and no handler that turns to the lexer takes part in it. -/
def IsSingle (l : Lexer φ) : Call φ → Prop
  | expect group value => l.current.fits group value = false → (l.handler.plan ⟨l.current, group, value⟩).Idle
  | drain _ => False
  | _ => True

theorem filter?_of_passes {c : Call φ} {t : Token} (h : c.passes t = true) : c.filter? = none := by
  cases c with
  | filter => cases h
  | _ => rfl

end Call

variable {φ : Type} [Judge φ]

/-! ### Losing an item -/

/-- The verdict of a filter, and the filter after it. Without a filter every token is kept. -/
def Judge.answer (view : Option View) : Option φ → Token → Except Failure Bool × Option φ
  | none, _ => (.ok true, none)
  | some f, t => ((judge f view t).1, some (judge f view t).2)

theorem Judge.answer_of_stateless {p q : Option φ} (h : Judge.Stateless p) {view : Option View} {t : Token}
    {v : Except Failure Bool} (ha : answer view p t = (v, q)) : q = p := by
  cases p with
  | none => exact (Prod.mk.inj ha).2.symm
  | some f =>
    rw [answer, h f rfl] at ha
    exact (Prod.mk.inj ha).2.symm

/-- What a verdict means for a token. -/
def Fate.ofVerdict (t : Token) : Except Failure Bool → Fate
  | .error g => lost g
  | .ok true => kept t
  | .ok false => rejected t

/-- From the position `k` of the feed on, the filter `p` rejects some tokens, perhaps none, and the next item is lost
with the failure `g`: it is no token, or the filter fails on it. The filter is `q` then, and the position `m`. -/
inductive Loses (s : Source) (outcome : Nat → Pull) (view : Option View) (g : Failure) :
    Option φ → Nat → Option φ → Nat → Prop
  | unread {p : Option φ} {k : Nat} (h : (outcome k).read s = .error g) : Loses s outcome view g p k p (k + 1)
  | unjudged {p q : Option φ} {k : Nat} {t : Token} (h : (outcome k).read s = .ok (some t))
    (ha : Judge.answer view p t = (.error g, q)) : Loses s outcome view g p k q (k + 1)
  | rejected {p p' q : Option φ} {k m : Nat} {t : Token} (h : (outcome k).read s = .ok (some t))
    (ha : Judge.answer view p t = (.ok false, p')) (rest : Loses s outcome view g p' (k + 1) q m) :
    Loses s outcome view g p k q m

namespace Loses

variable {s : Source} {outcome : Nat → Pull} {view : Option View} {g : Failure} {p q : Option φ} {k m : Nat}

theorem lt (h : Loses s outcome view g p k q m) : k < m := by
  induction h with
  | unread => exact Nat.lt_succ_self _
  | unjudged => exact Nat.lt_succ_self _
  | rejected _ _ _ ih => exact Nat.lt_of_succ_lt ih

theorem filter_eq (h : Loses s outcome view g p k q m) (hp : Judge.Stateless p) : q = p := by
  induction h with
  | unread => rfl
  | unjudged _ ha => exact Judge.answer_of_stateless hp ha
  | rejected _ ha _ ih =>
    obtain rfl := Judge.answer_of_stateless hp ha
    exact ih hp

end Loses

namespace Intake

variable {view : Option View} {i j : Intake φ}

theorem judge_answer {t : Token} {v : Except Failure Bool} (h : i.judge view t = (v, j)) :
    Judge.answer view i.filter t = (v, j.filter) := by
  cases hf : i.filter with
  | none =>
    rw [judge_of_none hf] at h
    obtain ⟨rfl, rfl⟩ := Prod.mk.inj h
    rw [hf]
    rfl
  | some f =>
    rw [judge_of_some hf] at h
    obtain ⟨rfl, rfl⟩ := Prod.mk.inj h
    rw [note_filter, putFilter_filter]
    rfl

/-- A verdict that is a failure is recorded. -/
theorem judge_mem_failures {t : Token} {v : Except Failure Bool} (h : i.judge view t = (v, j)) :
    ∃ asked, j.record = asked ++ i.record ∧ ∀ g, g ∈ failures asked ↔ v = .error g := by
  cases hf : i.filter with
  | none =>
    rw [judge_of_none hf] at h
    obtain ⟨rfl, rfl⟩ := Prod.mk.inj h
    exact ⟨[], rfl, by simp⟩
  | some f =>
    rw [judge_of_some hf] at h
    obtain ⟨rfl, rfl⟩ := Prod.mk.inj h
    refine ⟨[.judged f t (Judge.judge f view t).1], by simp, fun g => ?_⟩
    cases (Judge.judge f view t).1 with
    | ok => simp [failures, Event.failure?]
    | error g' => simp [failures, Event.failure?, eq_comm]

theorem Draws.mem_failures {fate : Fate} (d : Draws view i fate j) :
    ∃ new, j.record = new ++ i.record ∧ ∀ g, g ∈ failures new ↔ fate = .lost g := by
  cases d with
  | ended =>
    exact ⟨[.reachedEnd i.source.size, .pulled i.feed.taken .ended], rfl,
      by simp [failures, Event.failure?]⟩
  | @unread f =>
    exact ⟨[.pulled i.feed.taken (.lost f)], rfl, by simp [failures, Event.failure?, eq_comm]⟩
  | @unjudged t f k _ hj =>
    obtain ⟨asked, hr, hg⟩ := judge_mem_failures hj
    refine ⟨.pulled i.feed.taken (.lost f) :: asked, by simp [hr], fun g => ?_⟩
    rw [failures_cons_of_some rfl, List.mem_cons, hg]
    simp [eq_comm]
  | @rejected t k _ hj =>
    obtain ⟨asked, hr, hg⟩ := judge_mem_failures hj
    refine ⟨.pulled i.feed.taken (.rejected t) :: asked, by simp [hr], fun g => ?_⟩
    rw [failures_cons_of_none rfl, hg]
    simp
  | @kept t k _ hj =>
    obtain ⟨asked, hr, hg⟩ := judge_mem_failures hj
    refine ⟨.pulled i.feed.taken (.kept t) :: asked, by simp [hr], fun g => ?_⟩
    rw [failures_cons_of_none rfl, hg]
    simp

/-- What is recorded of fetching a token are no failures but the one that it gives. -/
theorem Fetches.mem_failures {n : Nat} {r : Except Halt Token} (h : Fetches view n i r j) :
    ∃ new, j.record = new ++ i.record ∧ ∀ g, g ∈ failures new ↔ r = .error (.failed g) := by
  induction h with
  | exhausted => exact ⟨[], rfl, by simp⟩
  | impatient => exact ⟨[], rfl, by simp⟩
  | ended _ d =>
    obtain ⟨new, hr, hg⟩ := d.mem_failures
    exact ⟨new, hr, by simp [hg]⟩
  | lost _ d =>
    obtain ⟨new, hr, hg⟩ := d.mem_failures
    exact ⟨new, hr, by simp [hg]⟩
  | kept _ d =>
    obtain ⟨new, hr, hg⟩ := d.mem_failures
    exact ⟨new, hr, by simp [hg]⟩
  | rejected _ d _ ih =>
    obtain ⟨new, hr, hg⟩ := d.mem_failures
    obtain ⟨new', hr', hg'⟩ := ih
    exact ⟨new' ++ new, by rw [hr', hr, List.append_assoc], by simp [hg, hg']⟩

theorem Draws.of_token {fate : Fate} (d : Draws view i fate j) {t : Token} {v : Except Failure Bool} {q : Option φ}
    (h : i.upcoming = .ok (some t)) (ha : Judge.answer view i.filter t = (v, q)) :
    fate = .ofVerdict t v ∧ j.filter = q := by
  have hjudge : ∀ {u : Token} {w : Except Failure Bool} {k : Intake φ}, i.upcoming = .ok (some u) →
      i.onward.judge view u = (w, k) → u = t ∧ w = v ∧ k.filter = q := by
    intro u w k hu hj
    obtain rfl : t = u := Option.some.inj (Except.ok.inj (h.symm.trans hu))
    have hw := (judge_answer hj).symm.trans ha
    exact ⟨rfl, (Prod.mk.inj hw).1, (Prod.mk.inj hw).2⟩
  cases d with
  | ended hu => cases h.symm.trans hu
  | unread hu => cases h.symm.trans hu
  | unjudged hu hj =>
    obtain ⟨rfl, rfl, rfl⟩ := hjudge hu hj
    exact ⟨rfl, rfl⟩
  | rejected hu hj =>
    obtain ⟨rfl, rfl, rfl⟩ := hjudge hu hj
    exact ⟨rfl, rfl⟩
  | kept hu hj =>
    obtain ⟨rfl, rfl, rfl⟩ := hjudge hu hj
    exact ⟨rfl, rfl⟩

theorem Draws.of_failure {fate : Fate} (d : Draws view i fate j) {g : Failure} (h : i.upcoming = .error g) :
    fate = .lost g := by
  cases d with
  | ended hu => cases h.symm.trans hu
  | unread hu =>
    obtain rfl := Except.error.inj (h.symm.trans hu)
    rfl
  | unjudged hu => cases h.symm.trans hu
  | rejected hu => cases h.symm.trans hu
  | kept hu => cases h.symm.trans hu

/-- Fetching a token fails because an item is lost, behind the tokens that were rejected. -/
theorem Fetches.loses {n : Nat} {g : Failure} (h : Fetches view n i (.error (.failed g)) j) :
    Loses i.source i.feed.outcome view g i.filter i.feed.taken j.filter j.feed.taken := by
  generalize hr : (Except.error (.failed g) : Except Halt Token) = r at h
  induction h with
  | exhausted => cases hr
  | impatient => cases hr
  | ended => cases hr
  | kept => cases hr
  | lost _ d =>
    cases hr
    rw [d.feed_eq]
    cases d with
    | unread hu => exact .unread hu
    | unjudged hu hj =>
      have ha := judge_answer hj
      exact .unjudged hu ha
  | rejected _ d _ ih =>
    have hrest := ih hr
    rw [d.source_eq, d.feed_eq] at hrest
    cases d with
    | rejected hu hj =>
      have ha := judge_answer hj
      exact .rejected hu ha hrest

end Intake

/-- If an item is going to be lost, fetching a token fails on it, given the patience to get there. -/
theorem Loses.next {s : Source} {outcome : Nat → Pull} {view : Option View} {g : Failure} {p q : Option φ} {k m : Nat}
    (h : Loses s outcome view g p k q m) {i : Intake φ} (hs : i.source = s) (ho : i.feed.outcome = outcome)
    (hk : i.feed.taken = k) (hp : i.filter = p) (hx : i.exhausted = false) {n : Nat} (hn : m ≤ k + n) :
    (i.next view n).1 = .error (.failed g) := by
  obtain ⟨n, rfl⟩ : ∃ n', n = n' + 1 := ⟨n - 1, by have := h.lt; omega⟩
  induction h generalizing i n with
  | unread hu =>
    subst hs ho hk hp
    have d := Intake.draws view i
    rcases hd : i.draw view with ⟨fate, j⟩
    rw [hd] at d
    obtain rfl : fate = _ := d.of_failure hu
    simp [Intake.next, hx, hd]
  | unjudged hu ha =>
    subst hs ho hk hp
    have d := Intake.draws view i
    rcases hd : i.draw view with ⟨fate, j⟩
    rw [hd] at d
    obtain ⟨rfl, -⟩ := d.of_token hu ha
    simp [Intake.next, hx, hd, Fate.ofVerdict]
  | rejected hu ha rest ih =>
    subst hs ho hk hp
    have d := Intake.draws view i
    rcases hd : i.draw view with ⟨fate, j⟩
    rw [hd] at d
    obtain ⟨rfl, hf⟩ := d.of_token hu ha
    have hlt := rest.lt
    obtain ⟨n, rfl⟩ : ∃ n', n = n' + 1 := ⟨n - 1, by omega⟩
    have hrest := ih (i := j) d.source_eq (by rw [d.feed_eq]; rfl) (by rw [d.feed_eq]; rfl) hf
      (by simpa [Fate.ofVerdict] using d.exhausted_eq hx) n (by omega)
    rw [Intake.next]
    simpa [hx, hd, Fate.ofVerdict] using hrest

namespace Lexer

/-- How the call `c` fails with `g` in the lexer `l`, and the filter and the position in the feed that it leaves. A
filter that is installed fails on the current token, and then nothing is pulled; or an item is lost, behind those that
are rejected, while the lexer looks for a token in place of a current one that was rejected, or goes on to the next. -/
inductive Fails (l : Lexer φ) (g : Failure) : Call φ → Option φ → Nat → Prop
  | judging {p q : Option φ} (he : l.atEnd = false)
    (ha : Judge.answer (some l.view) p l.current = (.error g, q)) : Fails l g (.filter p) q l.intake.feed.taken
  | refilling {p p' q : Option φ} {m : Nat} (he : l.atEnd = false)
    (ha : Judge.answer (some l.view) p l.current = (.ok false, p'))
    (rest : Loses l.intake.source l.intake.feed.outcome (some l.view) g p' l.intake.feed.taken q m) :
    Fails l g (.filter p) q m
  | pulling {c : Call φ} {q : Option φ} {m : Nat} (hc : c.passes l.current = true)
    (rest : Loses l.intake.source l.intake.feed.outcome (some l.view) g l.intake.filter l.intake.feed.taken q m) :
    Fails l g c q m

theorem Fails.filter_eq {l : Lexer φ} {g : Failure} {c : Call φ} {q : Option φ} {m : Nat} (h : Fails l g c q m)
    (hp : Judge.Stateless (c.filter?.getD l.intake.filter)) : q = c.filter?.getD l.intake.filter := by
  cases h with
  | judging _ ha => exact Judge.answer_of_stateless hp ha
  | refilling _ ha rest =>
    obtain rfl := Judge.answer_of_stateless hp ha
    exact rest.filter_eq hp
  | pulling hc rest =>
    rw [Call.filter?_of_passes hc] at hp ⊢
    exact rest.filter_eq hp

/-! ### Failures on record -/

variable {patience : Nat} {l l' : Lexer φ}

theorem Advances.mem_failures {r : Except Halt Token} (h : Advances patience l r l') :
    ∃ new, l'.intake.record = new ++ l.intake.record ∧ ∀ g, g ∈ failures new ↔ r = .error (.failed g) := by
  cases h with
  | moved hf =>
    obtain ⟨new, hr, hg⟩ := hf.mem_failures
    refine ⟨.consumed l.current :: new, by simp [hr], fun g => ?_⟩
    rw [failures_cons_of_none rfl, hg]
    simp
  | halted hf =>
    obtain ⟨new, hr, hg⟩ := hf.mem_failures
    exact ⟨new, hr, by simp [hg]⟩

theorem Refilters.mem_failures {f : Option φ} {r : Except Halt Unit} (h : Refilters patience f l r l') :
    ∃ new, l'.intake.record = new ++ l.intake.record ∧ ∀ g, g ∈ failures new ↔ r = .error (.failed g) := by
  have hset : failures [Event.filterSet f] = [] := rfl
  have hasked : ∀ {v : Except Failure Bool} {i : Intake φ}, (l.refiltered f).judge (some l.view) l.current = (v, i) →
      ∃ asked, i.record = asked ++ l.intake.record ∧ ∀ g, g ∈ failures asked ↔ v = .error g := by
    intro v i hj
    obtain ⟨asked, hr, hg⟩ := Intake.judge_mem_failures hj
    have hrecord : (l.refiltered f).record = [.filterSet f] ++ l.intake.record := rfl
    exact ⟨asked ++ [.filterSet f], by rw [hr, hrecord, List.append_assoc], by simp [hset, hg]⟩
  cases h with
  | atEnd => exact ⟨[.filterSet f], rfl, by simp [hset]⟩
  | failed _ hj =>
    obtain ⟨asked, hr, hg⟩ := hasked hj
    exact ⟨asked, hr, by simp [hg]⟩
  | kept _ hj =>
    obtain ⟨asked, hr, hg⟩ := hasked hj
    exact ⟨asked, hr, by simp [hg]⟩
  | replaced _ hj hn =>
    obtain ⟨asked, hr, hg⟩ := hasked hj
    obtain ⟨new, hr', hg'⟩ := hn.mem_failures
    refine ⟨.discarded l.current :: (new ++ asked), by simp [hr, hr'], fun g => ?_⟩
    rw [failures_cons_of_none rfl]
    simp [hg, hg']
  | halted _ hj hn =>
    obtain ⟨asked, hr, hg⟩ := hasked hj
    obtain ⟨new, hr', hg'⟩ := hn.mem_failures
    exact ⟨new ++ asked, by simp [hr, hr'], by simp [hg, hg']⟩

/-! ### Calls that fail -/

/-- What the lexer `l'` after a call that failed with `g` has in common with `l`, and what the call cost. -/
structure Withstands (l : Lexer φ) (g : Failure) (c : Call φ) (l' : Lexer φ) : Prop where
  previous_eq : l'.previous = l.previous
  current_eq : l'.current = l.current
  handler_eq : l'.handler = l.handler
  exhausted_eq : l'.intake.exhausted = l.intake.exhausted
  fails : Fails l g c l'.intake.filter l'.intake.feed.taken

theorem Advances.withstands {g : Failure} (h : Advances patience l (.error (.failed g)) l') {c : Call φ}
    (hc : c.passes l.current = true) : Withstands l g c l' := by
  cases h with
  | @halted _ i hf =>
    have hopen : i.exhausted = false := hf.exhausted_of_error
    exact ⟨rfl, rfl, rfl, hopen.trans (hf.open_of hopen).symm, .pulling hc hf.loses⟩

theorem Refilters.withstands {f : Option φ} {g : Failure} (h : Refilters patience f l (.error (.failed g)) l') :
    Withstands l g (.filter f) l' := by
  cases h with
  | @failed _ i he hj =>
    have ha := Intake.judge_answer hj
    obtain ⟨-, hfeed, hx, -⟩ := Intake.judge_frame hj
    have hk : i.feed.taken = l.intake.feed.taken := congrArg Feed.taken hfeed
    refine ⟨rfl, rfl, rfl, hx, ?_⟩
    dsimp only
    rw [hk]
    exact .judging he ha
  | @halted _ j _ he hj hn =>
    have ha := Intake.judge_answer hj
    obtain ⟨hs, hfeed, hx, -⟩ := Intake.judge_frame hj
    have hopen : j.exhausted = false := hn.exhausted_of_error
    have hloses := hn.loses
    rw [hs, hfeed] at hloses
    exact ⟨rfl, rfl, rfl, hopen.trans ((hn.open_of hopen).symm.trans hx), .refilling he ha hloses⟩

/-- A handler that does not turn to the lexer leaves it as it was, but for the handler and the remarks. -/
theorem call_of_idle {group : String} {value : Option String} (hf : l.current.fits group value = false)
    (hp : (l.handler.plan ⟨l.current, group, value⟩).Idle) (patience : Nat) :
    let m : Mismatch := ⟨l.current, group, value⟩
    ∃ h, (l.call patience (.expect group value)).2 = ((l.note (.expected m)).note (.delivered l.handler m)).become h := by
  intro m
  simp only [call]
  rw [expect_of_not_fits patience hf, react_eq]
  exact carryOut_of_idle patience hp _

/-- What fails during a call that is one operation is what the call gives. -/
theorem call_of_single {c : Call φ} (hc : c.IsSingle l) {g : Failure}
    (hg : g ∈ failures (l.since (l.call patience c).2)) :
    (l.call patience c).1 = .error (.failed g) ∧ Withstands l g c (l.call patience c).2 := by
  have hquiet : ∀ es, (l.call patience c).2.intake.record = es ++ l.intake.record → failures es ≠ [] := by
    intro es hr hes
    rw [since_eq hr, failures_reverse, hes] at hg
    cases hg
  cases hp : c.passes l.current with
  | true =>
    rw [call_of_passes hp] at hg ⊢
    have ha := l.advance_advances patience
    obtain ⟨new, hr, hnew⟩ := ha.mem_failures
    rw [since_eq hr, failures_reverse, List.mem_reverse, hnew] at hg
    rw [hg] at ha ⊢
    exact ⟨rfl, ha.withstands hp⟩
  | false =>
    cases c with
    | advance => cases hp
    | peek => exact absurd rfl (hquiet [] rfl)
    | accept group value =>
      refine absurd rfl (hquiet [] ?_)
      simp only [call]
      rw [accept_of_not_fits patience hp]
      rfl
    | expect group value =>
      obtain ⟨h, hh⟩ := call_of_idle hp (hc hp) patience
      let m : Mismatch := ⟨l.current, group, value⟩
      refine absurd rfl (hquiet [.delivered l.handler m, .expected m] ?_)
      rw [hh]
      rfl
    | filter f =>
      have hf := l.filter_refilters patience f
      obtain ⟨new, hr, hnew⟩ := hf.mem_failures
      have hr : (l.call patience (.filter f)).2.intake.record = new ++ l.intake.record := hr
      rw [since_eq hr, failures_reverse, List.mem_reverse, hnew] at hg
      rw [hg] at hf
      refine ⟨?_, hf.withstands⟩
      simp only [call]
      rw [hg]
      rfl
    | onerror h => exact absurd rfl (hquiet [.handlerSet h] rfl)
    | drain => exact hc.elim
    | describe => exact absurd rfl (hquiet [] rfl)

/-- If a call is going to fail, it does, given the patience to get there. -/
theorem Fails.raises {c : Call φ} {g : Failure} {q : Option φ} {m : Nat} (h : Fails l g c q m)
    (hx : l.intake.exhausted = false) (hm : m ≤ l.intake.feed.taken + patience) :
    g ∈ failures (l.since (l.call patience c).2) := by
  have hfilter : ∀ p, (l.filter patience p).1 = .error (.failed g) →
      g ∈ failures (l.since (l.call patience (.filter p)).2) := by
    intro p hr
    obtain ⟨new, hn, hnew⟩ := (l.filter_refilters patience p).mem_failures
    have hmem := (hnew g).2 hr
    have hcall : (l.call patience (.filter p)).2.intake.record = new ++ l.intake.record := hn
    rw [since_eq hcall]
    simpa using hmem
  cases h with
  | @judging p _ he ha =>
    apply hfilter
    rw [Lexer.filter_eq, he]
    rcases hj : (l.refiltered p).judge (some l.view) l.current with ⟨v, i⟩
    obtain rfl : v = .error g := (Prod.mk.inj ((Intake.judge_answer hj).symm.trans ha)).1
    rfl
  | @refilling p _ _ _ he ha rest =>
    apply hfilter
    rw [Lexer.filter_eq, he]
    rcases hj : (l.refiltered p).judge (some l.view) l.current with ⟨v, i⟩
    obtain ⟨hv, hp⟩ := Prod.mk.inj ((Intake.judge_answer hj).symm.trans ha)
    obtain rfl : v = .ok false := hv
    obtain ⟨hs, hk, hopen, -⟩ := Intake.judge_frame hj
    have hn := rest.next hs (by rw [hk]; rfl) (by rw [hk]; rfl) hp (hopen.trans hx) hm
    have hnext : (({ l with intake := i } : Lexer φ).next patience).1 = .error (.failed g) := hn
    rcases hr : ({ l with intake := i } : Lexer φ).next patience with ⟨e | t, j⟩
    · rw [hr] at hnext
      obtain rfl : e = .failed g := Except.error.inj hnext
      simp only [Bool.false_eq_true, ↓reduceIte, hr]
    · rw [hr] at hnext
      cases hnext
  | pulling hc rest =>
    have hn : (l.next patience).1 = .error (.failed g) := rest.next rfl rfl rfl rfl hx hm
    have hr : (l.advance patience).1 = .error (.failed g) := by
      unfold advance
      rcases hi : l.next patience with ⟨e | t, i⟩
      · rw [hi] at hn
        exact hn
      · rw [hi] at hn
        cases hn
    rw [call_of_passes hc]
    obtain ⟨new, hnew, hmem⟩ := (l.advance_advances patience).mem_failures
    rw [since_eq hnew]
    simpa using (hmem g).2 hr

/-- A failure of the feed, of a conversion or of a filter during a call in which no handler turns to the lexer is what
the call gives. The tokens, the handler and the source are the same, and the end was not found. What is lost are the
items that were rejected and the one that failed; the filter in force is the one that the call installs, or the one
before, as the questions leave it. Conversely, a call that is going to fail does. -/
theorem failing_call_frame {patience : Nat} {input : String} {feed : Feed} {f : Option φ} {handler : Handler φ}
    {l₀ : Lexer φ} (created : (create patience { source := ⟨input⟩, feed, common := f } handler).1 = .ok l₀)
    (before : List (Call φ)) (c : Call φ) (g : Failure) :
    let l := (l₀.run patience before).2
    let l' := (l.call patience c).2
    (c.IsSingle l → g ∈ failures (l.since l') →
      (l.call patience c).1 = .error (.failed g) ∧ l'.source = l.source ∧
      l'.previous = l.previous ∧ l'.current = l.current ∧ l'.handler = l.handler ∧
      l'.intake.exhausted = l.intake.exhausted ∧ l'.intake.feed.outcome = l.intake.feed.outcome ∧
      l'.messages.filter isEndMessage = l.messages.filter isEndMessage ∧
      Fails l g c l'.intake.filter l'.intake.feed.taken ∧
      (Judge.Stateless (c.filter?.getD l.intake.filter) → l'.intake.filter = c.filter?.getD l.intake.filter)) ∧
    ∀ q m, Fails l g c q m → l.intake.exhausted = false → m ≤ l.intake.feed.taken + patience →
      g ∈ failures (l.since l') := by
  intro l l'
  have hl : Grounded ⟨input⟩ feed.outcome l :=
    Grounded.stable.of_run (fun _ _ _ _ => trivial) (Grounded.of_create rfl rfl created)
  have hl' : Grounded ⟨input⟩ feed.outcome l' := Grounded.stable.of_call (fun _ _ => trivial) hl
  refine ⟨fun hc hg => ?_, fun q m h => h.raises⟩
  obtain ⟨hr, h⟩ : (l.call patience c).1 = .error (.failed g) ∧ Withstands l g c l' := call_of_single hc hg
  refine ⟨hr, hl'.source_eq.trans hl.source_eq.symm, h.previous_eq, h.current_eq, h.handler_eq, h.exhausted_eq,
    hl'.outcome_eq.trans hl.outcome_eq.symm, ?_, h.fails, h.fails.filter_eq⟩
  rw [hl'.messages_eq, hl.messages_eq, h.exhausted_eq]

/-- A filter is installed that rejects the current token and the next one, and then an item fails. -/
theorem failing_call_frame_behind_rejected :
    let word : Token := ⟨"word", "ab", 0, some ⟨"abcd;e"⟩⟩
    let other : Token := ⟨"word", "cd", 2, some ⟨"abcd;e"⟩⟩
    let feed := Feed.ofList [.item (.token word), .item (.token other), .item (.token ⟨"mark", ";", 4, none⟩),
      .fail (.raised "torn"), .item (.token ⟨"word", "e", 5, none⟩)]
    let p : Option Filter := some (.ofKind "groups" (.groups ["number"]))
    let record : List (Event Filter) := [.pulled 0 (.kept word), .created (Source.size ⟨"abcd;e"⟩)]
    let l₀ : Lexer Filter := ⟨{ source := ⟨"abcd;e"⟩, feed := feed.next.2, record }, none, word, .advance 2⟩
    let l := (l₀.run 3 [.advance]).2
    let l' := (l.call 3 (.filter p)).2
    (create 3 { source := ⟨"abcd;e"⟩, feed } (.advance 2)).1 = .ok l₀ ∧
      l.previous = some word ∧ l.current = other ∧ l.intake.feed.taken = 2 ∧
      .raised "torn" ∈ failures (l.since l') ∧
      (l.call 3 (.filter p)).1 = .error (.failed (.raised "torn")) ∧ l'.intake.exhausted = l.intake.exhausted ∧
      l'.previous = l.previous ∧ l'.current = l.current ∧ Fails l (.raised "torn") (.filter p) p 4 ∧
      l'.intake.filter = p := by
  intro word other feed p record l₀ l l'
  have created : (create 3 { source := ⟨"abcd;e"⟩, feed } (.advance 2)).1 = .ok l₀ := rfl
  obtain ⟨hframe, hraises⟩ := failing_call_frame created [.advance] (.filter p) (.raised "torn")
  have hfails : Fails l (.raised "torn") (.filter p) p 4 :=
    .refilling rfl rfl (.rejected rfl rfl (.unread rfl))
  have hg := hraises p 4 hfails rfl (by decide)
  obtain ⟨hr, -, hprevious, hcurrent, -, hx, -, -, -, hfilter⟩ := hframe trivial hg
  exact ⟨created, rfl, rfl, rfl, hg, hr, hx, hprevious, hcurrent, hfails, hfilter (Filter.stateless rfl)⟩

/-- A handler that advances twice does so once before an item fails, and what it did stays done. A handler that catches
the failure goes on to the end, and the expectation has a result. -/
theorem failing_handler_moves :
    let word : Token := ⟨"word", "a", 0, some ⟨"abc"⟩⟩
    let other : Token := ⟨"word", "b", 1, some ⟨"abc"⟩⟩
    let feed := Feed.ofList [.item (.token word), .item (.token other), .fail (.raised "torn")]
    let retry : Handler Filter := .program "<handler retry>" fun _ =>
      .act .advance fun _ => .act .advance fun _ => .act .advance fun _ => .done (.ok ())
    (∃ l : Lexer Filter, (create 3 { source := ⟨"abc"⟩, feed } (.advance 2)).1 = .ok l ∧
      let l' := (l.call 3 (.expect "number" none)).2
      .raised "torn" ∈ failures (l.since l') ∧
      (l.call 3 (.expect "number" none)).1 = .error (.failed (.raised "torn")) ∧
      l.previous = none ∧ l.current = word ∧ l'.previous = some word ∧ l'.current = other ∧
      ¬ (l'.previous = l.previous ∧ l'.current = l.current)) ∧
    ∃ l : Lexer Filter, (create 3 { source := ⟨"abc"⟩, feed } retry).1 = .ok l ∧
      let l' := (l.call 3 (.expect "number" none)).2
      .raised "torn" ∈ failures (l.since l') ∧ (l.call 3 (.expect "number" none)).1 = .ok (.token none) ∧
      l.intake.exhausted = false ∧ l'.intake.exhausted = true ∧
      l.messages.filter isEndMessage = [] ∧ l'.messages.filter isEndMessage = ["Reached end of input at 3"] := by
  intro word other feed retry
  refine ⟨⟨_, rfl, by decide +kernel, rfl, rfl, rfl, rfl, rfl, ?_⟩,
    ⟨_, rfl, by decide +kernel, rfl, rfl, rfl, by decide +kernel, by decide +kernel⟩⟩
  rintro ⟨h, -⟩
  cases h

end Lexer

end Lookahead
