import Lookahead.Proofs.Pending

/-!
# Reading under a filter

A lexer whose feed does not fail and whose filter does not fail reads what the filter keeps of its pending tokens, and
asks it about each of them once, from the left (`Lexer.filter_then_consume`). The invariant is `Lexer.Sifts`: what was
kept so far is what was handed out and then the current token. `Intake.Passes` says what pulls come to on the way.
-/

namespace Lookahead

namespace Intake

variable {φ : Type} [Judge φ] {view : Option View}

open Judge (keeps after asked sieve Calm)

/-! ### What pulls come to -/

/-- The intake `i` became `j` while the events `new` happened, the latest first: the tokens that were ahead are passed,
and the filter was asked about them. -/
structure Passes (i : Intake φ) (new : List (Event φ)) (j : Intake φ) : Prop where
  source_eq : j.source = i.source
  outcome_eq : j.feed.outcome = i.feed.outcome
  record_eq : j.record = new ++ i.record
  exhausted_of : i.exhausted = true → j.exhausted = true
  filter_eq : j.filter = asked i.filter (i.ahead (new.countP Event.isPull))
  ahead_eq (n : Nat) : i.ahead (new.countP Event.isPull + n) = i.ahead (new.countP Event.isPull) ++ j.ahead n
  questions_eq : (new.filterMap Event.question?).reverse =
    if i.filter.isSome then i.ahead (new.countP Event.isPull) else []
  length_eq : j.exhausted = false → (i.ahead (new.countP Event.isPull)).length = new.countP Event.isPull

namespace Passes

variable {i j k : Intake φ} {new new' : List (Event φ)}

theorem refl (i : Intake φ) : Passes i [] i where
  source_eq := rfl
  outcome_eq := rfl
  record_eq := rfl
  exhausted_of h := h
  filter_eq := by rw [List.countP_nil, ahead_zero]; rfl
  ahead_eq n := by rw [List.countP_nil, ahead_zero, Nat.zero_add, List.nil_append]
  questions_eq := by rw [List.countP_nil, ahead_zero]; split <;> rfl
  length_eq _ := by rw [List.countP_nil, ahead_zero]; rfl

theorem open_of (h : Passes i new j) (hx : j.exhausted = false) : i.exhausted = false := by
  rw [← Bool.not_eq_true]
  intro hi
  rw [h.exhausted_of hi] at hx
  cases hx

theorem ahead_append (h : Passes i new j) (later : List (Event φ)) :
    i.ahead ((later ++ new).countP Event.isPull) =
      i.ahead (new.countP Event.isPull) ++ j.ahead (later.countP Event.isPull) := by
  rw [List.countP_append, Nat.add_comm, h.ahead_eq]

/-- What is kept of what is passed later comes behind what was kept before. -/
theorem sieve_append (h : Passes i new j) (later : List (Event φ)) :
    sieve i.filter (i.ahead ((later ++ new).countP Event.isPull)) =
      sieve i.filter (i.ahead (new.countP Event.isPull)) ++ sieve j.filter (j.ahead (later.countP Event.isPull)) := by
  rw [h.ahead_append, Judge.sieve_append, h.filter_eq]

theorem trans (h : Passes i new j) (h' : Passes j new' k) : Passes i (new' ++ new) k := by
  have hc : (new' ++ new).countP Event.isPull = new.countP Event.isPull + new'.countP Event.isPull := by
    rw [List.countP_append, Nat.add_comm]
  have hsome : j.filter.isSome = i.filter.isSome := by rw [h.filter_eq, Judge.asked_isSome]
  constructor
  · exact h'.source_eq.trans h.source_eq
  · exact h'.outcome_eq.trans h.outcome_eq
  · rw [h'.record_eq, h.record_eq, List.append_assoc]
  · exact fun hx => h'.exhausted_of (h.exhausted_of hx)
  · rw [h.ahead_append, Judge.asked_append, ← h.filter_eq, h'.filter_eq]
  · intro n
    rw [h.ahead_append, hc, Nat.add_assoc, h.ahead_eq, h'.ahead_eq, List.append_assoc]
  · rw [h.ahead_append, List.filterMap_append, List.reverse_append, h.questions_eq, h'.questions_eq, hsome]
    split <;> rfl
  · intro hx
    rw [h.ahead_append, hc, List.length_append, h.length_eq (h'.open_of hx), h'.length_eq hx]

theorem calm (h : Passes i new j) (hc : Calm i.filter) : Calm j.filter := by
  rw [h.filter_eq]
  exact hc.asked _

theorem smooth (h : Passes i new j) (hs : i.feed.Smooth i.source) : j.feed.Smooth j.source := by
  rw [h.source_eq]
  exact hs.congr h.outcome_eq

/-- What is neither a pull nor a question does not count. -/
theorem note (h : Passes i new j) {e : Event φ} (hp : e.isPull = false) (hq : e.question? = none) :
    Passes i (e :: new) (j.note e) := by
  have hc : (e :: new).countP Event.isPull = new.countP Event.isPull := List.countP_cons_of_neg (by simp [hp])
  constructor
  · exact h.source_eq
  · exact h.outcome_eq
  · exact congrArg (e :: ·) h.record_eq
  · exact h.exhausted_of
  · rw [hc]; exact h.filter_eq
  · intro n
    rw [hc]; exact h.ahead_eq n
  · rw [hc, List.filterMap_cons_none hq]; exact h.questions_eq
  · rw [hc]; exact h.length_eq

end Passes

theorem judge_of_calm {i : Intake φ} (calm : Calm i.filter) (view : Option View) (t : Token) :
    ∃ j new, i.judge view t = (.ok (keeps i.filter t), j) ∧ j.filter = after i.filter t ∧
      j.record = new ++ i.record ∧ (∀ e ∈ new, e.isDraw = true ∧ e.isPull = false) ∧
      new.filterMap Event.question? = if i.filter.isSome then [t] else [] := by
  cases hf : i.filter with
  | none => exact ⟨i, [], judge_of_none hf view t, hf, rfl, by simp, rfl⟩
  | some f =>
    rw [hf] at calm
    have hv : Judge.judge f view t = _ := calm [] f rfl view t
    refine ⟨_, [.judged f t (Judge.judge f view t).1], by rw [judge_of_some hf, hv], ?_, ?_, ?_, rfl⟩
    · simp [after]
    · simp [hv]
    · simp [Event.isDraw, Event.isPull]

/-- A token that is pulled and judged passes, whatever the verdict. -/
private theorem passes_of_judge {i k : Intake φ} {t : Token} {b : Bool} (hx : i.exhausted = false)
    (calm : Calm i.filter) (hu : i.upcoming = .ok (some t)) (hv : i.onward.judge view t = (.ok b, k)) (fate : Fate) :
    ∃ new, Passes i new (k.note (.pulled i.feed.taken fate)) ∧ new.countP Event.isPull = 1 ∧
      (∀ e ∈ new, e.isDraw = true) ∧ i.ahead 1 = [t] ∧ keeps i.filter t = b := by
  obtain ⟨k', asked, hk, hfilter, hr, ha, hq⟩ := judge_of_calm (i := i.onward) calm view t
  obtain ⟨hkeep, rfl⟩ := Prod.mk.inj (hk.symm.trans hv)
  obtain ⟨hs, hf, hj, -⟩ := judge_frame hk
  have hp : asked.countP Event.isPull = 0 := by
    rw [List.countP_eq_zero]
    exact fun e he => by simp [(ha e he).2]
  have hc : (Event.pulled i.feed.taken fate :: asked).countP Event.isPull = 1 := by
    rw [List.countP_cons_of_pos rfl, hp]
  have hsucc := fun n => ahead_succ (j := k'.note (.pulled i.feed.taken fate)) hx hu hs hf (hj.trans hx) n
  have h1 : i.ahead 1 = [t] := by rw [hsucc, ahead_zero]
  refine ⟨.pulled i.feed.taken fate :: asked, ⟨hs, ?_, ?_, fun h => ?_, ?_, fun n => ?_, ?_, fun _ => ?_⟩, hc, ?_, h1,
    by simpa using hkeep⟩
  · rw [note_feed, hf]
    rfl
  · rw [note_record, hr]
    rfl
  · rw [hx] at h
    cases h
  · rw [hc, h1]
    exact hfilter
  · rw [hc, h1, Nat.add_comm, hsucc]
    rfl
  · rw [hc, h1, List.filterMap_cons_none rfl, hq, onward_filter]
    split <;> rfl
  · rw [hc, h1]
    rfl
  · exact List.forall_mem_cons.2 ⟨rfl, fun e he => (ha e he).1⟩

/-- A pull of an intake that nothing can fail: it passes one token, unless it is the end. -/
private theorem Draws.passes {i j : Intake φ} {fate : Fate} (d : Draws view i fate j) (hx : i.exhausted = false)
    (calm : Calm i.filter) (smooth : i.feed.Smooth i.source) :
    ∃ new, Passes i new j ∧ new.countP Event.isPull = 1 ∧ (∀ e ∈ new, e.isDraw = true) ∧
      match fate with
      | .ended => i.ahead 1 = []
      | .lost _ => False
      | .rejected t => i.ahead 1 = [t] ∧ keeps i.filter t = false
      | .kept t => i.ahead 1 = [t] ∧ keeps i.filter t = true := by
  cases d with
  | ended hu =>
    have ha : ∀ n, i.ahead n = [] := ahead_of_ended hu
    refine ⟨[.reachedEnd i.source.size, .pulled i.feed.taken .ended], ⟨rfl, rfl, rfl, fun _ => rfl, ?_, fun n => ?_,
      ?_, fun h => ?_⟩, rfl, by simp [Event.isDraw], ha 1⟩
    · rw [ha]
      rfl
    · rw [ha, ha, ahead_of_exhausted rfl]
      rfl
    · rw [ha]
      split <;> rfl
    · cases h
  | unread hu =>
    -- A smooth feed has no item that cannot be read.
    obtain ⟨t?, ht⟩ := smooth i.feed.taken
    rw [show (i.feed.outcome i.feed.taken).read i.source = .error _ from hu] at ht
    cases ht
  | unjudged hu hv =>
    obtain ⟨k, new, hk, -⟩ := judge_of_calm (i := i.onward) calm view _
    rw [hk] at hv
    cases (Prod.mk.inj hv).1
  | rejected hu hv => exact passes_of_judge hx calm hu hv _
  | kept hu hv => exact passes_of_judge hx calm hu hv _

/-- What pulls up to a token that is kept pass: the filter keeps that token only, and it is the last. -/
theorem Fetches.passes {n : Nat} {i j : Intake φ} {r : Except Halt Token} (h : Fetches view n i r j)
    (calm : Calm i.filter) (smooth : i.feed.Smooth i.source) :
    ∃ new, Passes i new j ∧ (∀ e ∈ new, e.isDraw = true) ∧
      let passed := i.ahead (new.countP Event.isPull)
      match r with
      | .ok t =>
        if j.exhausted then sieve i.filter passed = [] ∧ t = i.eof
        else sieve i.filter passed = [t] ∧ passed.getLast? = some t
      | .error e => sieve i.filter passed = [] ∧ e = .impatient ∧ new.countP Event.isPull = n := by
  induction h with
  | exhausted hx => exact ⟨[], .refl _, by simp, by simp [hx, ahead_zero, sieve]⟩
  | impatient hx => exact ⟨[], .refl _, by simp, by simp [ahead_zero, sieve]⟩
  | ended hx d =>
    obtain ⟨new, hp, hc, hd, ha⟩ := d.passes hx calm smooth
    refine ⟨new, hp, hd, ?_⟩
    simp [hc, ha, sieve, d.exhausted_eq hx, eof, d.source_eq]
  | lost hx d =>
    obtain ⟨-, -, -, -, ha⟩ := d.passes hx calm smooth
    exact ha.elim
  | kept hx d =>
    obtain ⟨new, hp, hc, hd, ha, hk⟩ := d.passes hx calm smooth
    refine ⟨new, hp, hd, ?_⟩
    simp [hc, ha, hk, sieve, d.exhausted_eq hx]
  | rejected hx d rest ih =>
    rename_i n i j k t r
    obtain ⟨new, hp, hc, hd, ha, hk⟩ := d.passes hx calm smooth
    obtain ⟨new', hp', hd', ht⟩ := ih (hp.calm calm) (hp.smooth smooth)
    -- The first token was rejected, so all that the filter keeps it keeps, in its next state, of the others.
    have hadd : (new' ++ new).countP Event.isPull = 1 + new'.countP Event.isPull := by
      rw [List.countP_append, hc, Nat.add_comm]
    have happ : i.ahead (1 + new'.countP Event.isPull) = t :: j.ahead (new'.countP Event.isPull) := by
      have h := hp.ahead_eq (new'.countP Event.isPull)
      rwa [hc, ha] at h
    have hafter : j.filter = after i.filter t := by rw [hp.filter_eq, hc, ha]; rfl
    refine ⟨new' ++ new, hp.trans hp', ?_, ?_⟩
    · exact fun e he => (List.mem_append.1 he).elim (hd' e) (hd e)
    · have hsieve : sieve i.filter (i.ahead ((new' ++ new).countP Event.isPull)) =
          sieve j.filter (j.ahead (new'.countP Event.isPull)) := by
        rw [hadd, happ, hafter, sieve, hk]
        rfl
      simp only [hsieve]
      cases r with
      | error e => exact ⟨ht.1, ht.2.1, by rw [hadd, ht.2.2, Nat.add_comm]⟩
      | ok u =>
        simp only [eof, hp.source_eq] at ht
        simp only [hadd, happ]
        split
        · rename_i hx
          rw [if_pos hx] at ht
          exact ht
        · rename_i hx
          rw [if_neg hx] at ht
          rw [List.getLast?_cons, ht.2]
          exact ⟨ht.1, rfl⟩

end Intake

namespace Lexer

variable {φ : Type} [Judge φ]

open Judge (keeps after asked sieve sift questioned Calm)
open Intake (Passes Fetches)

/-! ### What was handed out -/

/-- Since its intake was `i`, with `head` in front of what was ahead, the lexer handed out what the filter keeps, but
for the token that is current now. At the end this goes on with the token at the end. -/
structure Sifts (i : Intake φ) (head : List Token) (new : List (Event φ)) (l : Lexer φ) : Prop where
  passes : Passes i new l.intake
  of_open : l.intake.exhausted = false →
    head ++ sieve i.filter (i.ahead (new.countP Event.isPull)) =
      (new.filterMap Event.consumed?).reverse ++ [l.current] ∧
    (head ++ i.ahead (new.countP Event.isPull)).getLast? = some l.current
  of_exhausted : l.intake.exhausted = true → l.current = i.eof ∧
    ∃ n, head ++ sieve i.filter (i.ahead (new.countP Event.isPull)) ++ List.replicate n i.eof =
      (new.filterMap Event.consumed?).reverse ++ [i.eof]

namespace Sifts

variable {i : Intake φ} {head : List Token} {new : List (Event φ)} {l : Lexer φ}

theorem note (h : Sifts i head new l) {e : Event φ} (hp : e.isPull = false) (hq : e.question? = none)
    (hc : e.consumed? = none) (handler : Handler φ) :
    Sifts i head (e :: new) ⟨l.intake.note e, l.previous, l.current, handler⟩ := by
  have hcount : (e :: new).countP Event.isPull = new.countP Event.isPull := List.countP_cons_of_neg (by simp [hp])
  refine ⟨h.passes.note hp hq, ?_, ?_⟩
  · rw [hcount, List.filterMap_cons_none hc]
    exact h.of_open
  · rw [hcount, List.filterMap_cons_none hc]
    exact h.of_exhausted

/-- The first token under a filter is the first that it keeps. -/
theorem of_fetches {view : Option View} {n : Nat} {j : Intake φ} {t : Token} (h : Fetches view n i (.ok t) j)
    (calm : Calm i.filter) (smooth : i.feed.Smooth i.source) (previous : Option Token) (handler : Handler φ) :
    ∃ new, Sifts i [] new ⟨j, previous, t, handler⟩ ∧ (∀ e ∈ new, e.isDraw = true) := by
  obtain ⟨new, hp, hd, ht⟩ := h.passes calm smooth
  have hc : new.filterMap Event.consumed? = [] :=
    Event.filterMap_consumed?_of_isDraw hd
  refine ⟨new, ⟨hp, fun hx => ?_, fun hx => ?_⟩, hd⟩
  · change j.exhausted = false at hx
    simp only [hx, Bool.false_eq_true, ↓reduceIte] at ht
    rw [hc]
    exact ht
  · change j.exhausted = true at hx
    simp only [hx, ↓reduceIte] at ht
    rw [hc]
    exact ⟨ht.2, 1, by rw [ht.1]; rfl⟩

/-- To hand out the current token and fetch another goes on with what the filter keeps. -/
theorem moved (h : Sifts i head new l) (calm : Calm i.filter) (smooth : i.feed.Smooth i.source) {view : Option View}
    {n : Nat} {k : Intake φ} {t : Token} (hf : Fetches view n l.intake (.ok t) k) :
    ∃ passed, (∀ e ∈ passed, e.isDraw = true) ∧
      Sifts i head (.consumed l.current :: passed ++ new)
        ⟨k.note (.consumed l.current), some l.current, t, l.handler⟩ := by
  obtain ⟨passed, hp, hd, ht⟩ := hf.passes (h.passes.calm calm) (h.passes.smooth smooth)
  have hc : passed.filterMap Event.consumed? = [] :=
    Event.filterMap_consumed?_of_isDraw hd
  have hcount : (.consumed l.current :: passed ++ new).countP Event.isPull = (passed ++ new).countP Event.isPull :=
    List.countP_cons_of_neg (by simp [Event.isPull])
  have hconsumed : ((.consumed l.current :: passed ++ new).filterMap Event.consumed?).reverse =
      (new.filterMap Event.consumed?).reverse ++ [l.current] := by
    rw [List.cons_append, List.filterMap_cons, List.filterMap_append, hc]
    exact List.reverse_cons
  refine ⟨passed, hd, (h.passes.trans hp).note rfl rfl, fun hx => ?_, fun hx => ?_⟩
  · change k.exhausted = false at hx
    simp only [hx, Bool.false_eq_true, ↓reduceIte] at ht
    obtain ⟨heq, -⟩ := h.of_open (hp.open_of hx)
    rw [hcount, hconsumed]
    constructor
    · rw [h.passes.sieve_append, ht.1, ← List.append_assoc, heq]
    · rw [h.passes.ahead_append, ← List.append_assoc, List.getLast?_append, ht.2]
      rfl
  · change k.exhausted = true at hx
    simp only [hx, ↓reduceIte] at ht
    rw [hcount, hconsumed, h.passes.sieve_append, ht.1, List.append_nil]
    have heof : l.intake.eof = i.eof := congrArg Token.eof h.passes.source_eq
    rw [heof] at ht
    refine ⟨ht.2, ?_⟩
    cases hl : l.intake.exhausted with
    | false => exact ⟨1, by rw [(h.of_open hl).1]; rfl⟩
    | true =>
      -- The token at the end is handed out once more.
      obtain ⟨hcur, n, hn⟩ := h.of_exhausted hl
      exact ⟨n + 1, by rw [List.replicate_succ', ← List.append_assoc, hn, hcur]⟩

/-- A fetch without a token lost patience: it passed as many tokens as it may, and the filter keeps none of them. -/
theorem halted (h : Sifts i head new l) (calm : Calm i.filter) (smooth : i.feed.Smooth i.source) {view : Option View}
    {n : Nat} {k : Intake φ} {e : Halt} (hf : Fetches view n l.intake (.error e) k) :
    e = .impatient ∧ ∃ all, Passes i all k ∧ k.exhausted = false ∧ n ≤ all.countP Event.isPull ∧
      head ++ sieve i.filter (i.ahead (all.countP Event.isPull)) =
        (new.filterMap Event.consumed?).reverse ++ [l.current] := by
  obtain ⟨passed, hp, -, hs, he, hn⟩ := hf.passes (h.passes.calm calm) (h.passes.smooth smooth)
  refine ⟨he, passed ++ new, h.passes.trans hp, hf.exhausted_of_error, ?_, ?_⟩
  · rw [List.countP_append, hn]
    exact Nat.le_add_right _ _
  · rw [h.passes.sieve_append, hs, List.append_nil]
    exact (h.of_open (hp.open_of hf.exhausted_of_error)).1

/-- Every operation goes on so, unless it installs a filter. -/
theorem stable (calm : Calm i.filter) (smooth : i.feed.Smooth i.source) {patience : Nat} :
    Stable patience (· ≠ .impatient) fun l : Lexer φ =>
      ∃ new, l.intake.record = new ++ i.record ∧ (new.filterMap Event.installed? = [] → Sifts i head new l) where
  failed _ := nofun
  remark {l e} he h := by
    obtain ⟨new, hr, h⟩ := h
    refine ⟨e :: new, congrArg (e :: ·) hr, fun hi => ?_⟩
    cases e with
    | expected => exact (h hi).note rfl rfl rfl _
    | delivered => exact (h hi).note rfl rfl rfl _
    | _ => cases he
  onerror {l} g h := by
    obtain ⟨new, hr, h⟩ := h
    exact ⟨.handlerSet g :: new, congrArg (_ :: ·) hr, fun hi => (h hi).note rfl rfl rfl _⟩
  become _ h := by
    obtain ⟨new, hr, h⟩ := h
    exact ⟨new, hr, fun hi => ⟨(h hi).passes, (h hi).of_open, (h hi).of_exhausted⟩⟩
  advance {l l' r} ha hr h := by
    obtain ⟨new, hrec, h⟩ := h
    cases ha with
    | halted hf =>
      obtain ⟨drawn, hd, hrec'⟩ := hf.record_eq
      refine ⟨drawn ++ new, by rw [hrec', hrec, List.append_assoc], fun hi => ?_⟩
      rw [List.filterMap_append, List.append_eq_nil_iff] at hi
      exact absurd ((h hi.2).halted calm smooth hf).1 (Halt.only_error.1 hr)
    | moved hf =>
      by_cases hi : new.filterMap Event.installed? = []
      · obtain ⟨passed, -, hs⟩ := (h hi).moved calm smooth hf
        exact ⟨_, hs.passes.record_eq, fun _ => hs⟩
      · -- Another filter was installed before: nothing is claimed, but the record goes on.
        obtain ⟨drawn, -, hrec'⟩ := hf.record_eq
        refine ⟨.consumed l.current :: drawn ++ new, ?_, fun hi' => absurd ?_ hi⟩
        · rw [Intake.note_record, hrec', hrec]
          simp
        · rw [List.filterMap_append, List.append_eq_nil_iff] at hi'
          exact hi'.2
  filter {l l' f r} hf _ h := by
    obtain ⟨new, hrec, -⟩ := h
    obtain ⟨last, drawn, hrec', -⟩ := hf.record_eq
    refine ⟨last ++ drawn ++ .filterSet f :: new, by rw [hrec', hrec]; simp, fun hi => ?_⟩
    rw [List.filterMap_append, List.append_eq_nil_iff] at hi
    cases hi.2

end Sifts

/-! ### Installing a filter -/

/-- After the filter `p` was installed and asked about the current token of `l`, the intake is `i`, and `head` is what
is kept of the current token. -/
structure Opens (p : Option φ) (l : Lexer φ) (head : List Token) (i : Intake φ) : Prop where
  source_eq : i.source = l.intake.source
  ahead_eq : i.ahead = l.intake.ahead
  calm : Calm i.filter
  smooth : i.feed.Smooth i.source
  isSome_eq : i.filter.isSome = p.isSome
  head_eq : head = [] ∨ head = [l.current]
  sift_eq (n : Nat) : sift p (l.pending n) = head ++ sieve i.filter (i.ahead n)
  record_eq : ∃ asked, i.record = asked ++ .filterSet p :: l.intake.record ∧
    (∀ e ∈ asked, e.isDraw = true ∧ e.isPull = false) ∧
    asked.filterMap Event.question? = if p.isSome then questioned [l.current] else []

namespace Opens

variable {p : Option φ} {l : Lexer φ}

theorem of_atEnd (h : l.atEnd = true) (calm : Calm p) (smooth : l.intake.feed.Smooth l.intake.source) :
    Opens p l [l.current] (l.refiltered p) where
  source_eq := rfl
  ahead_eq := Intake.ahead_congr rfl rfl rfl
  calm := calm
  smooth := smooth
  isSome_eq := rfl
  head_eq := .inr rfl
  sift_eq n := by
    have he : l.current.isEof = true := h
    rw [pending, Judge.sift_cons, if_pos he]
    rfl
  record_eq := by
    have he : l.current.isEof = true := h
    exact ⟨[], rfl, by simp, by simp [questioned, he]⟩

theorem of_judge (h : l.atEnd = false) (calm : Calm p) (smooth : l.intake.feed.Smooth l.intake.source) {b : Bool}
    {i : Intake φ} (hj : (l.refiltered p).judge (some l.view) l.current = (.ok b, i)) :
    Opens p l (if b then [l.current] else []) i := by
  have he : l.current.isEof = false := h
  obtain ⟨i', asked, hk, hfilter, hr, ha, hq⟩ :=
    Intake.judge_of_calm (i := l.refiltered p) calm (some l.view) l.current
  obtain ⟨hkeep, rfl⟩ := Prod.mk.inj (hk.symm.trans hj)
  obtain ⟨hs, hf, hx, -⟩ := Intake.judge_frame hj
  have hahead : i'.ahead = l.intake.ahead := Intake.ahead_congr hs hf hx
  have hkeep : keeps p l.current = b := by simpa using hkeep
  constructor
  · exact hs
  · exact hahead
  · rw [hfilter]
    exact calm.asked [l.current]
  · rw [hs, hf]
    exact smooth
  · rw [hfilter]
    exact Judge.asked_isSome p [l.current]
  · cases b with
    | false => exact .inl rfl
    | true => exact .inr rfl
  · intro n
    rw [pending, Judge.sift_cons, if_neg (by simp [he]), hkeep, hahead, hfilter]
    cases b <;> rfl
  · refine ⟨asked, hr, ha, hq.trans ?_⟩
    cases p with
    | none => rfl
    | some f => simp [questioned, he]

end Opens

/-- Installing a filter in a lexer whose feed cannot fail: the lexer goes on with what the filter keeps. -/
theorem Refilters.opens {patience : Nat} {p : Option φ} {l l' : Lexer φ} {r : Except Halt Unit}
    (h : Refilters patience p l r l') (calm : Calm p) (smooth : l.intake.feed.Smooth l.intake.source)
    (hend : l.intake.exhausted = true → l.current = l.intake.eof) :
    ∃ head i, Opens p l head i ∧
      match r with
      | .ok () => ∃ new, new.filterMap Event.installed? = [] ∧ new.filterMap Event.consumed? = [] ∧ Sifts i head new l'
      | .error e => e = .impatient ∧ ∃ all, Passes i all l'.intake ∧ l'.intake.exhausted = false ∧
          patience ≤ all.countP Event.isPull ∧ head ++ sieve i.filter (i.ahead (all.countP Event.isPull)) = [] := by
  cases h with
  | atEnd he =>
    refine ⟨_, _, .of_atEnd he calm smooth, [], rfl, rfl, .refl _, fun _ => ?_, fun hx => ?_⟩
    · exact ⟨by rw [List.countP_nil, Intake.ahead_zero]; rfl, by rw [List.countP_nil, Intake.ahead_zero]; rfl⟩
    · have hc := hend hx
      exact ⟨hc, 0, by rw [List.countP_nil, Intake.ahead_zero, hc]; rfl⟩
  | failed he hj =>
    obtain ⟨i, asked, hk, -⟩ := Intake.judge_of_calm (i := l.refiltered p) calm (some l.view) l.current
    rw [hk] at hj
    cases (Prod.mk.inj hj).1
  | kept he hj =>
    have ho := Opens.of_judge he calm smooth hj
    refine ⟨_, _, ho, [], rfl, rfl, .refl _, fun _ => ?_, fun hx => ?_⟩
    · exact ⟨by rw [List.countP_nil, Intake.ahead_zero]; rfl, by rw [List.countP_nil, Intake.ahead_zero]; rfl⟩
    · have hc : l.current = l.intake.eof := hend ((Intake.judge_frame hj).2.2.1.symm.trans hx)
      rw [Lexer.atEnd, hc, Intake.eof, Token.isEof_eof] at he
      cases he
  | replaced he hj hn =>
    have ho := Opens.of_judge he calm smooth hj
    obtain ⟨new, hs, hd⟩ := Sifts.of_fetches hn ho.calm ho.smooth l.previous l.handler
    refine ⟨_, _, ho, .discarded l.current :: new, ?_, ?_, hs.note rfl rfl rfl _⟩
    · exact List.filterMap_eq_nil_iff.2 (List.forall_mem_cons.2 ⟨rfl, fun e he => Event.installed?_of_isDraw (hd e he)⟩)
    · exact List.filterMap_eq_nil_iff.2 (List.forall_mem_cons.2 ⟨rfl, fun e he => Event.consumed?_of_isDraw (hd e he)⟩)
  | halted he hj hn =>
    have ho := Opens.of_judge he calm smooth hj
    obtain ⟨new, hp, -, hs, hi, hc⟩ := hn.passes ho.calm ho.smooth
    exact ⟨_, _, ho, hi, new, hp, hn.exhausted_of_error, Nat.le_of_eq hc.symm, by rw [hs]; rfl⟩

end Lexer

end Lookahead
