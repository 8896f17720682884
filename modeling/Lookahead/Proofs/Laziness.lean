import Lookahead.Proofs.FilteredRun

/-!
# Laziness

A lexer depends on its feed only through the pulls that it made. If two feeds answer the first pulls alike, then two
lexers over them do the same as long as they make no others (`Lexer.reads_no_further`): one is the other with the
answers exchanged (`Lexer.answering`). `Lexer.Lazy` says this of what is done to a lexer; it is shown for the two
operations that pull, and handed on to all others by `Lazy.andThen`. That a later part of an operation cannot take back
pulls of an earlier one is `Lexer.Onward`.
-/

namespace Lookahead

/-! ### Other answers -/

/-- The feed at the same position, with other answers. -/
def Feed.answering (f : Feed) (g : Nat → Pull) : Feed := ⟨g, f.taken⟩

namespace Intake

variable {φ : Type}

/-- The intake with other answers of its feed. -/
def answering (i : Intake φ) (g : Nat → Pull) : Intake φ := { i with feed := i.feed.answering g }

/-- The answers that are still to come before the position `n` are those of `g`. -/
def Foresees (g : Nat → Pull) (n : Nat) (i : Intake φ) : Prop :=
  ∀ k, i.feed.taken ≤ k → k < n → g k = i.feed.outcome k

/-- The intake `j` is further on in the same feed. -/
def Onward (i j : Intake φ) : Prop := j.feed.outcome = i.feed.outcome ∧ i.feed.taken ≤ j.feed.taken

namespace Onward

variable {i j k : Intake φ}

theorem of_feed_eq (h : j.feed = i.feed) : Onward i j :=
  ⟨congrArg Feed.outcome h, Nat.le_of_eq (congrArg Feed.taken h).symm⟩

theorem trans (h : Onward i j) (h' : Onward j k) : Onward i k := ⟨h'.1.trans h.1, Nat.le_trans h.2 h'.2⟩

theorem foresees {g : Nat → Pull} {n : Nat} (h : Onward i j) (hi : i.Foresees g n) : j.Foresees g n := by
  intro k hk hn
  rw [h.1]
  exact hi k (Nat.le_trans h.2 hk) hn

end Onward

variable [Judge φ] (g : Nat → Pull)

theorem judge_answering (i : Intake φ) (view : Option View) (t : Token) :
    (i.answering g).judge view t = ((i.judge view t).1, (i.judge view t).2.answering g) := by
  rcases i with ⟨source, feed, common, _ | own, exhausted, record⟩
  · cases common <;> rfl
  · cases own <;> rfl

private theorem settle_answering (i : Intake φ) (view : Option View) (p : Pull) :
    (i.answering g).settle view p = ((i.settle view p).1, (i.settle view p).2.answering g) := by
  cases p with
  | stop => rfl
  | fail f => rfl
  | item raw =>
    have hs : (i.answering g).source = i.source := rfl
    unfold settle
    simp only [hs, judge_answering]
    rcases raw.convert (some i.source) with f | _ | t
    · rfl
    · rfl
    · dsimp only
      rcases i.judge view t with ⟨f | _ | _, j⟩ <;> rfl

/-- A pull whose answer is the same. -/
theorem draw_answering {i : Intake φ} (h : g i.feed.taken = i.feed.outcome i.feed.taken) (view : Option View) :
    (i.answering g).draw view = ((i.draw view).1, (i.draw view).2.answering g) := by
  have hpull : (i.answering g).feed.next.1 = i.feed.next.1 := h
  have honward : (i.answering g).onward = i.onward.answering g := rfl
  rw [draw_eq, draw_eq, honward, hpull, settle_answering]
  rcases i.onward.settle view i.feed.next.1 with ⟨_ | _ | _ | _, j⟩ <;> rfl

theorem Fetches.onward {view : Option View} {n : Nat} {i j : Intake φ} {r : Except Halt Token}
    (h : Fetches view n i r j) : Onward i j :=
  ⟨h.outcome_eq, h.taken_le⟩

/-- The loop over pulls, if all that it pulls is the same. -/
theorem next_answering {n : Nat} {i : Intake φ} (hi : i.Foresees g n) {view : Option View} {patience : Nat}
    (hn : (i.next view patience).2.feed.taken ≤ n) :
    (i.answering g).next view patience = ((i.next view patience).1, (i.next view patience).2.answering g) := by
  induction patience generalizing i with
  | zero =>
    have hx : (i.answering g).exhausted = i.exhausted := rfl
    unfold next
    rw [hx]
    cases i.exhausted <;> rfl
  | succ patience ih =>
    cases hx : i.exhausted with
    | true =>
      have hx' : (i.answering g).exhausted = true := hx
      rw [next_of_exhausted hx', next_of_exhausted hx]
      rfl
    | false =>
      have hx' : (i.answering g).exhausted = false := hx
      have hd := draws view i
      have htaken : i.feed.taken < n := by
        have hlt := (fetches view (patience + 1) i).taken_lt (Nat.succ_pos _) hx
        omega
      have hdraw := draw_answering g (hi _ (Nat.le_refl _) htaken) view
      unfold next at hn ⊢
      simp only [hx, hx', hdraw, Bool.false_eq_true, ↓reduceIte] at hn ⊢
      rcases hs : i.draw view with ⟨fate, j⟩
      rw [hs] at hd hn
      have hj : Onward i j := ⟨by rw [hd.feed_eq]; rfl, by rw [hd.feed_eq]; exact Nat.le_succ _⟩
      cases fate with
      | ended => rfl
      | lost f => rfl
      | kept t => rfl
      | rejected t => exact ih (hj.foresees hi) hn

end Intake

namespace Lexer

variable {φ : Type}

/-- The lexer with other answers of its feed. -/
def answering (l : Lexer φ) (g : Nat → Pull) : Lexer φ := { l with intake := l.intake.answering g }

/-- The lexer `l'` is further on in the same feed. -/
def Onward (l l' : Lexer φ) : Prop := l.intake.Onward l'.intake

theorem Onward.of_feed_eq {l l' : Lexer φ} (h : l'.intake.feed = l.intake.feed) : Onward l l' :=
  Intake.Onward.of_feed_eq h

theorem Onward.trans {l l' l'' : Lexer φ} (h : Onward l l') (h' : Onward l' l'') : Onward l l'' :=
  Intake.Onward.trans h h'

/-- What is done to a lexer, with a result. -/
abbrev Doing (φ α : Type) := Lexer φ → Except Halt α × Lexer φ

/-- First the one and then, if it has a result, the other. -/
def andThen {α β : Type} (x : Except Halt α × Lexer φ) (k : α → Doing φ β) : Except Halt β × Lexer φ :=
  match x with
  | (.ok a, l) => k a l
  | (.error e, l) => (.error e, l)

/-- What is done goes on in the feed, and it is the same with other answers, if the answers up to the position `n` are
the same and it gets no further. -/
structure Lazy {α : Type} (g : Nat → Pull) (n : Nat) (f : Doing φ α) : Prop where
  onward (l : Lexer φ) : Onward l (f l).2
  answering {l : Lexer φ} : l.intake.Foresees g n → (f l).2.intake.feed.taken ≤ n →
    f (l.answering g) = ((f l).1, (f l).2.answering g)

namespace Lazy

variable {α β : Type} {g : Nat → Pull} {n : Nat} {f f' : Doing φ α}

/-- What does not look at the feed. -/
theorem of_feed_eq (hfeed : ∀ l, (f l).2.intake.feed = l.intake.feed)
    (h : ∀ l, f (l.answering g) = ((f l).1, (f l).2.answering g)) : Lazy g n f where
  onward l := .of_feed_eq (hfeed l)
  answering _ _ := h _

theorem stay (r : Except Halt α) : Lazy g n (fun l : Lexer φ => (r, l)) :=
  of_feed_eq (fun _ => rfl) fun _ => rfl

theorem andThen (hf : Lazy g n f) {k : α → Doing φ β} (hk : ∀ a, Lazy g n (k a)) :
    Lazy g n fun l => Lexer.andThen (f l) k where
  onward l := by
    have hl := hf.onward l
    unfold Lexer.andThen
    rcases hr : f l with ⟨e | a, l'⟩
    · rw [hr] at hl
      exact hl
    · rw [hr] at hl
      exact hl.trans ((hk a).onward l')
  answering {l} hg hn := by
    have hl := hf.onward l
    have ha := hf.answering hg
    unfold Lexer.andThen at hn ⊢
    rcases hr : f l with ⟨e | a, l'⟩
    · rw [hr] at hn ha
      rw [ha hn]
    · -- What follows takes no pull back, so the first part got no further either.
      rw [hr] at hl hn ha
      have hle := ((hk a).onward l').2
      rw [ha (Nat.le_trans hle hn)]
      exact (hk a).answering (hl.foresees hg) hn

/-- To go on after a result and after a failure. -/
theorem goOn (hf : Lazy g n f) {k : Except Failure α → Doing φ β} (hk : ∀ r, Lazy g n (k r)) :
    Lazy g n fun l => Lexer.goOn k (f l) where
  onward l := by
    have hl := hf.onward l
    rcases hr : f l with ⟨(e | _) | a, l'⟩
    · rw [hr] at hl
      exact hl.trans ((hk (.error e)).onward l')
    · rw [hr] at hl
      exact hl
    · rw [hr] at hl
      exact hl.trans ((hk (.ok a)).onward l')
  answering {l} hg hn := by
    have hl := hf.onward l
    have ha := hf.answering hg
    rcases hr : f l with ⟨(e | _) | a, l'⟩
    · rw [hr] at hl hn ha
      rw [ha (Nat.le_trans ((hk (.error e)).onward l').2 hn)]
      exact (hk (.error e)).answering (hl.foresees hg) hn
    · rw [hr] at hn ha
      rw [ha hn]
      rfl
    · rw [hr] at hl hn ha
      rw [ha (Nat.le_trans ((hk (.ok a)).onward l').2 hn)]
      exact (hk (.ok a)).answering (hl.foresees hg) hn

theorem congr (hf : Lazy g n f) (h : ∀ l, f' l = f l) : Lazy g n f' := by
  rw [funext h]
  exact hf

theorem map (hf : Lazy g n f) (h : α → β) : Lazy g n fun l => ((f l).1.map h, (f l).2) where
  onward := hf.onward
  answering hg hn := by rw [hf.answering hg hn]

/-- To look first at something that is not the feed. -/
theorem look {γ : Type} (see : Lexer φ → γ) (hsee : ∀ l, see (l.answering g) = see l) {f : γ → Doing φ α}
    (hf : ∀ c, Lazy g n (f c)) : Lazy g n fun l => f (see l) l where
  onward l := (hf (see l)).onward l
  answering {l} hg hn := by
    rw [hsee]
    exact (hf (see l)).answering hg hn

/-- To look first at something that tells which of two is done. -/
theorem ite (see : Lexer φ → Bool) (hsee : ∀ l, see (l.answering g) = see l) (hf : Lazy g n f) (hf' : Lazy g n f') :
    Lazy g n fun l => if see l then f l else f' l where
  onward l := by
    split
    · exact hf.onward l
    · exact hf'.onward l
  answering {l} hg hn := by
    rw [hsee]
    cases h : see l with
    | true =>
      rw [h] at hn
      exact hf.answering hg hn
    | false =>
      rw [h] at hn
      exact hf'.answering hg hn

/-- To do it after a change that does not look at the feed. -/
theorem after {u : Lexer φ → Lexer φ} (hfeed : ∀ l, (u l).intake.feed = l.intake.feed)
    (hu : ∀ l, u (l.answering g) = (u l).answering g) (hf : Lazy g n f) : Lazy g n fun l => f (u l) where
  onward l := (Onward.of_feed_eq (hfeed l)).trans (hf.onward (u l))
  answering {l} hg hn := by
    rw [hu]
    exact hf.answering ((Onward.of_feed_eq (hfeed l)).foresees hg) hn

theorem note {e : Lexer φ → Event φ} (he : ∀ l, e (l.answering g) = e l) (hf : Lazy g n f) :
    Lazy g n fun l => f (l.note (e l)) := by
  refine hf.after (fun _ => rfl) fun l => ?_
  rw [he]
  rfl

end Lazy

variable [Judge φ] {patience : Nat} {g : Nat → Pull} {n : Nat}

/-! ### Operations in parts -/

theorem advance_eq_andThen (patience : Nat) :
    advance (φ := φ) patience = fun l => andThen (l.next patience) fun t l =>
      (.ok l.current, { l with previous := some l.current, current := t }.note (.consumed l.current)) := by
  funext l
  unfold advance next andThen
  rcases l.intake.next (some l.view) patience with ⟨_ | _, _⟩ <;> rfl

/-- The first part of `filter`: a filter is installed and asked about the current token. -/
def consult (p : Option φ) : Doing φ Bool := fun l =>
  (((l.refiltered p).judge (some l.view) l.current).1.mapError Halt.failed,
    { l with intake := ((l.refiltered p).judge (some l.view) l.current).2 })

/-- The last part of `filter`: the next token takes the place of the current one. -/
def replace (patience : Nat) : Doing φ Unit := fun l => andThen (l.next patience) fun t l =>
  (.ok (), { l with current := t }.note (.discarded l.current))

theorem filter_eq_andThen (patience : Nat) (p : Option φ) :
    filter patience p = fun l => if l.atEnd then (.ok (), { l with intake := l.refiltered p }) else
      andThen (consult p l) fun kept l => if kept then (.ok (), l) else l.replace patience := by
  funext l
  rw [filter_eq]
  unfold consult
  rcases (l.refiltered p).judge (some l.view) l.current with ⟨_ | _ | _, i⟩
  · rfl
  · change _ = if l.atEnd then _ else andThen (({ l with intake := i } : Lexer φ).next patience) _
    unfold next andThen
    dsimp only
    rcases i.next (some (view ⟨i, l.previous, l.current, l.handler⟩)) patience with ⟨_ | _, _⟩ <;> rfl
  · rfl

theorem skip_zero (patience : Nat) (stop : Token → Bool) :
    skip (φ := φ) patience stop 0 = fun l => if l.atEnd || stop l.current then (.ok (), l) else
      (.error .impatient, l) := by
  funext l
  unfold skip
  rfl

theorem skip_succ (patience : Nat) (stop : Token → Bool) (m : Nat) :
    skip (φ := φ) patience stop (m + 1) = fun l => if l.atEnd || stop l.current then (.ok (), l) else
      andThen (l.advance patience) fun _ => skip patience stop m := by
  funext l
  conv => lhs; unfold skip
  unfold andThen
  rcases l.advance patience with ⟨_ | _, _⟩ <;> rfl

theorem skip_of_atEnd {l : Lexer φ} (h : l.atEnd = true) (patience : Nat) (stop : Token → Bool) (m : Nat) :
    l.skip patience stop m = (.ok (), l) := by
  have hstop : (l.atEnd || stop l.current) = true := by rw [h, Bool.true_or]
  cases m with
  | zero => rw [skip_zero]; exact if_pos hstop
  | succ m => rw [skip_succ]; exact if_pos hstop

/-- What `expectOr` does about another token than the one that was expected. -/
def report (react : Mismatch → Doing φ Unit) (group : String) (value : Option String) (t : Token) :
    Doing φ (Option Token) := fun l =>
  ((react ⟨t, group, value⟩ (l.note (.expected ⟨t, group, value⟩))).1.map fun _ => none,
    (react ⟨t, group, value⟩ (l.note (.expected ⟨t, group, value⟩))).2)

theorem expectOr_eq_ite (patience : Nat) (react : Mismatch → Doing φ Unit) (group : String) (value : Option String) :
    expectOr (φ := φ) patience react group value = fun l => if l.current.fits group value then
      ((l.advance patience).1.map some, (l.advance patience).2) else report react group value l.current l := by
  funext l
  cases h : l.current.fits group value with
  | true => exact expectOr_of_fits patience react h
  | false => exact expectOr_of_not_fits patience react h

theorem drain_zero (patience : Nat) (most : Bool) :
    drain (φ := φ) patience most 0 = fun l => if l.atEnd then (.ok [], l) else
      (if most then .ok [] else .error .impatient, l) := by
  funext l
  unfold drain
  rfl

theorem drain_succ (patience : Nat) (most : Bool) (m : Nat) :
    drain (φ := φ) patience most (m + 1) = fun l => if l.atEnd then (.ok [], l) else
      andThen (l.advance patience) fun t l =>
        ((drain patience most m l).1.map (t :: ·), (drain patience most m l).2) := by
  funext l
  conv => lhs; unfold drain
  unfold andThen
  rcases l.advance patience with ⟨_ | _, _⟩ <;> rfl

theorem drain_of_atEnd {l : Lexer φ} (h : l.atEnd = true) (patience : Nat) (most : Bool) (m : Nat) :
    l.drain patience most m = (.ok [], l) := by
  cases m with
  | zero => rw [drain_zero]; exact if_pos h
  | succ m => rw [drain_succ]; exact if_pos h

/-! ### Operations -/

private theorem lazy_next : Lazy (φ := φ) g n (next patience) where
  onward l := (Intake.fetches (some l.view) patience l.intake).onward
  answering {l} hg hn := by
    have hi := Intake.next_answering g hg hn
    exact congrArg (fun x => (x.1, ({ l with intake := x.2 } : Lexer φ))) hi

private theorem lazy_advance : Lazy (φ := φ) g n (advance patience) := by
  rw [advance_eq_andThen]
  exact lazy_next.andThen fun t => Lazy.of_feed_eq (fun _ => rfl) fun _ => rfl

private theorem lazy_consult {p : Option φ} : Lazy g n (consult p) := by
  refine Lazy.of_feed_eq (fun l => ?_) fun l => ?_
  · exact (Intake.judge_frame (i := l.refiltered p) rfl).2.1
  · have hj := Intake.judge_answering g (l.refiltered p) (some l.view) l.current
    exact congrArg (fun x => (x.1.mapError Halt.failed, ({ l with intake := x.2 } : Lexer φ))) hj

private theorem lazy_replace : Lazy (φ := φ) g n (replace patience) :=
  lazy_next.andThen fun _ => Lazy.of_feed_eq (fun _ => rfl) fun _ => rfl

private theorem lazy_filter {p : Option φ} : Lazy g n (filter patience p) := by
  rw [filter_eq_andThen]
  refine Lazy.ite atEnd (fun _ => rfl) (Lazy.of_feed_eq (fun _ => rfl) fun _ => rfl)
    (lazy_consult.andThen fun kept => ?_)
  cases kept with
  | true => exact Lazy.stay _
  | false => exact lazy_replace

private theorem lazy_skip {stop : Token → Bool} (m : Nat) : Lazy (φ := φ) g n (skip patience stop m) := by
  induction m with
  | zero =>
    rw [skip_zero]
    exact Lazy.ite (fun l => l.atEnd || stop l.current) (fun _ => rfl) (Lazy.stay _) (Lazy.stay _)
  | succ m ih =>
    rw [skip_succ]
    exact Lazy.ite (fun l => l.atEnd || stop l.current) (fun _ => rfl) (Lazy.stay _) (lazy_advance.andThen fun _ => ih)

private theorem lazy_act (a : Act φ) : Lazy g n (act patience · a) := by
  cases a with
  | advance => exact lazy_advance.map _
  | skip stop => exact (lazy_skip _).map _
  | filter p => exact lazy_filter.map _

private theorem lazy_accept {group : String} {value : Option String} :
    Lazy (φ := φ) g n (accept patience group value) :=
  Lazy.ite (fun l => l.current.fits group value) (fun _ => rfl) (lazy_advance.map some) (Lazy.stay (.ok none))

private theorem lazy_expectOr {react : Mismatch → Doing φ Unit} (hr : ∀ m, Lazy g n (react m)) {group : String}
    {value : Option String} : Lazy (φ := φ) g n (expectOr patience react group value) := by
  have hreport : ∀ t, Lazy g n (report react group value t) :=
    fun t => ((hr _).note (e := fun _ => _) fun _ => rfl).map _
  rw [expectOr_eq_ite]
  exact Lazy.ite (fun l => l.current.fits group value) (fun _ => rfl) (lazy_advance.map some)
    (Lazy.look current (fun _ => rfl) hreport)

private theorem lazy_carryOut (p : Plan φ) : Lazy g n (carryOut patience p) := by
  induction p using Plan.induct with
  | done r =>
    refine Lazy.of_feed_eq (fun l => ?_) fun l => ?_
    · rw [carryOut]
    · rw [carryOut, carryOut]
  | look next ih =>
    have h := Lazy.look (g := g) (n := n) view (fun _ => rfl) ih
    exact h.congr fun l => by rw [carryOut]
  | act a next ih => exact ((lazy_act a).goOn ih).congr fun l => by rw [carryOut]
  | onerror h next ih =>
    exact (Lazy.after (u := (onerror · h)) (fun _ => rfl) (fun _ => rfl) ih).congr fun l => by rw [carryOut]
  | become h next ih =>
    exact (Lazy.after (u := (become · h)) (fun _ => rfl) (fun _ => rfl) ih).congr fun l => by rw [carryOut]
  | expect h group value next ihtold ih =>
    have hreact : ∀ m, Lazy g n (react patience h m) := fun m =>
      (Lazy.note (e := fun _ => .delivered h m) (fun _ => rfl) (ihtold m)).congr fun l => react_eq patience h m l
    exact (Lazy.goOn (Lazy.after (u := (become · h)) (fun _ => rfl) (fun _ => rfl) (lazy_expectOr hreact)) ih).congr
      fun l => by rw [carryOut]

private theorem lazy_react (h : Handler φ) (m : Mismatch) : Lazy g n (react patience h m) :=
  (Lazy.note (e := fun _ => .delivered h m) (fun _ => rfl) (lazy_carryOut (h.plan m))).congr
    fun l => react_eq patience h m l

private theorem lazy_drain {most : Bool} (m : Nat) : Lazy (φ := φ) g n (drain patience most m) := by
  induction m with
  | zero =>
    rw [drain_zero]
    exact Lazy.ite atEnd (fun _ => rfl) (Lazy.stay _) (Lazy.stay _)
  | succ m ih =>
    rw [drain_succ]
    exact Lazy.ite atEnd (fun _ => rfl) (Lazy.stay _) (lazy_advance.andThen fun t => ih.map _)

theorem lazy_call (c : Call φ) : Lazy g n (call patience · c) := by
  cases c with
  | advance => exact lazy_advance.map _
  | peek group value => exact Lazy.look (peek · group value) (fun _ => rfl) fun p => Lazy.stay ((p.map _).mapError _)
  | accept group value => exact lazy_accept.map _
  | expect group value =>
    have hreact : ∀ m, Lazy g n fun l : Lexer φ => react patience l.handler m l :=
      fun m => Lazy.look handler (fun _ => rfl) fun h => lazy_react h m
    exact (lazy_expectOr hreact).map _
  | filter p => exact lazy_filter.map _
  | onerror h => exact Lazy.after (u := (onerror · h)) (fun _ => rfl) (fun _ => rfl) (Lazy.stay _)
  | drain most => exact (lazy_drain _).map _
  | describe =>
    exact Lazy.look (fun l => Answer.description l.describe l.source.describe l.source.input) (fun _ => rfl)
      fun a => Lazy.stay (.ok a)

theorem call_onward (patience : Nat) (l : Lexer φ) (c : Call φ) : Onward l (l.call patience c).2 :=
  (lazy_call (g := l.intake.feed.outcome) (n := 0) c).onward l

theorem onward_of_create (patience : Nat) (i : Intake φ) (handler : Handler φ) :
    i.Onward (create patience i handler).2 := by
  have hf := Intake.fetches none patience (i.note (.created i.source.size))
  unfold create
  rcases hn : (i.note (.created i.source.size)).next none patience with ⟨e | t, j⟩
  · rw [hn] at hf
    exact hf.onward
  · rw [hn] at hf
    exact hf.onward

/-- The item that was pulled last was lost. -/
def Missed (l : Lexer φ) : Prop :=
  ∃ k f, l.intake.feed.taken = k + 1 ∧ .pulled k (.lost f) ∈ l.intake.record

omit [Judge φ] in
/-- What pulls nothing forgets nothing. -/
private theorem Missed.mono {l l' : Lexer φ} (h : l.Missed) (hf : l'.intake.feed = l.intake.feed)
    (hr : l.intake.record <:+ l'.intake.record) : l'.Missed := by
  obtain ⟨k, f, hk, hmem⟩ := h
  exact ⟨k, f, (congrArg Feed.taken hf).trans hk, hr.subset hmem⟩

end Lexer

end Lookahead
