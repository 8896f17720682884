import Lookahead.Proofs.Stateless

/-!
# Advancing in spite of failures

A caller who advances again after a failure reads the same tokens as if the items that fail were not there, and meets
each of their failures once, in order (`Lexer.retrying_ignores_failures`). Two lexers are compared, one of which stands
still where the other fails (`Lexer.Alike`): a failure may come after some tokens were rejected, but those are nothing
that the next advance would look at.
-/

namespace Lookahead

/-- The failure, if there is one. -/
def Halt.failure? {α : Type} : Except Halt α → Option Failure
  | .error (.failed f) => some f
  | _ => none

/-! ### Fates in order -/

namespace Fate

/-- The failures up to the end. -/
def failures (fs : List Fate) : List Failure := (fs.takeWhile (!isEnd ·)).filterMap failure?

/-- The tokens that are kept up to the end. -/
def tokens (fs : List Fate) : List Token := (fs.takeWhile (!isEnd ·)).filterMap token?

/-- The first fate that is not a rejection, and those behind it. -/
def first : List Fate → Fate × List Fate
  | [] => (ended, [])
  | rejected _ :: fs => first fs
  | f :: fs => (f, fs)

/-- What the first fate that is not a rejection tells about all of them. -/
inductive First (fs : List Fate) : Fate × List Fate → Prop
  | ended {rest : List Fate} (tokens_eq : tokens fs = []) (failures_eq : failures fs = []) : First fs (.ended, rest)
  | lost {f : Failure} {rest : List Fate} (tokens_eq : tokens fs = tokens rest)
    (failures_eq : failures fs = f :: failures rest) (length_lt : rest.length < fs.length) : First fs (.lost f, rest)
  | kept {t : Token} {rest : List Fate} (tokens_eq : tokens fs = t :: tokens rest)
    (failures_eq : failures fs = failures rest) (length_lt : rest.length < fs.length) : First fs (.kept t, rest)

theorem first_first (fs : List Fate) : First fs (first fs) := by
  induction fs with
  | nil => exact .ended rfl rfl
  | cons f fs ih =>
    cases f with
    | ended => exact .ended rfl rfl
    | lost f => exact .lost rfl rfl (Nat.lt_succ_self _)
    | kept t => exact .kept rfl rfl (Nat.lt_succ_self _)
    | rejected t =>
      have htokens : tokens (rejected t :: fs) = tokens fs := rfl
      have hfailures : failures (rejected t :: fs) = failures fs := rfl
      change First (rejected t :: fs) (first fs)
      revert ih
      cases first fs with
      | mk fate rest =>
        intro ih
        cases ih with
        | ended ht hf => exact .ended (htokens.trans ht) (hfailures.trans hf)
        | lost ht hf hl => exact .lost (htokens.trans ht) (hfailures.trans hf) (Nat.lt_succ_of_lt hl)
        | kept ht hf hl => exact .kept (htokens.trans ht) (hfailures.trans hf) (Nat.lt_succ_of_lt hl)

private theorem takeWhile_append_of_any (fs gs : List Fate) :
    (fs ++ gs).takeWhile (!isEnd ·) =
      fs.takeWhile (!isEnd ·) ++ if fs.any isEnd then [] else gs.takeWhile (!isEnd ·) := by
  induction fs with
  | nil => rfl
  | cons f fs ih =>
    cases hf : f.isEnd with
    | true => simp [hf]
    | false => simp [hf, ih]

/-- What is behind the end does not count. -/
theorem failures_append (fs gs : List Fate) :
    failures (fs ++ gs) = failures fs ++ if fs.any isEnd then [] else failures gs := by
  unfold failures
  rw [takeWhile_append_of_any, List.filterMap_append]
  split <;> rfl

theorem tokens_append (fs gs : List Fate) :
    tokens (fs ++ gs) = tokens fs ++ if fs.any isEnd then [] else tokens gs := by
  unfold tokens
  rw [takeWhile_append_of_any, List.filterMap_append]
  split <;> rfl

/-- Without the items that are lost there are no failures, and the tokens are the same. -/
theorem tokens_failures_filter (fs : List Fate) :
    tokens (fs.filter fun f => f.failure?.isNone) = tokens fs ∧
      failures (fs.filter fun f => f.failure?.isNone) = [] := by
  induction fs with
  | nil => exact ⟨rfl, rfl⟩
  | cons f fs ih =>
    cases f with
    | ended => exact ⟨rfl, rfl⟩
    | lost f => exact ih
    | rejected t => exact ih
    | kept t => exact ⟨congrArg (t :: ·) ih.1, ih.2⟩

end Fate

/-! ### Items to come -/

/-- The failure that an item was not made for. -/
def Pull.failure? : Pull → Option Failure
  | fail f => some f
  | _ => none

/-- The items still to be pulled are those of a list, and then nothing. -/
def Feed.Holds (f : Feed) (ps : List Pull) : Prop := ∀ k, f.outcome (f.taken + k) = ps[k]?.getD .stop

namespace Feed

/-- A feed that its first failure ends gives what comes before it, and then the failure. -/
theorem closing_eq (ps : List Pull) :
    closing ps = ps.takeWhile (fun a => a.failure?.isNone) ++ (ps.findSome? Pull.failure?).toList.map .fail := by
  induction ps with
  | nil => rfl
  | cons a ps ih =>
    cases a with
    | item raw => exact congrArg (.item raw :: ·) ih
    | fail f => rfl
    | stop => exact congrArg (.stop :: ·) ih

theorem length_closing_le (ps : List Pull) : (closing ps).length ≤ ps.length := by
  induction ps with
  | nil => exact Nat.le_refl _
  | cons a ps ih =>
    cases a with
    | item raw => exact Nat.succ_le_succ ih
    | fail f => exact Nat.succ_le_succ (Nat.zero_le _)
    | stop => exact Nat.succ_le_succ ih

theorem holds_ofList (ps : List Pull) : (ofList ps).Holds ps := by
  intro k
  rw [outcome_ofList]
  exact congrArg (fun n => ps[n]?.getD .stop) (Nat.zero_add k)

theorem Holds.next_fst {f : Feed} {ps : List Pull} (h : f.Holds ps) : f.next.1 = ps.headD .stop := by
  have h0 := h 0
  cases ps <;> exact h0

theorem Holds.next_snd {f : Feed} {ps : List Pull} (h : f.Holds ps) : f.next.2.Holds ps.tail := by
  intro k
  have hk := h (k + 1)
  rw [← Nat.add_assoc, Nat.add_right_comm] at hk
  cases ps with
  | nil => exact hk
  | cons p ps => simpa using hk

end Feed

namespace Intake

variable {φ : Type} [Judge φ]

/-- The fates of the items to come are those of a list; after the end there are none. -/
def Awaits (i : Intake φ) (fs : List Fate) : Prop :=
  if i.exhausted then fs = [] else ∃ ps, i.feed.Holds ps ∧ ps.map (Pull.fate i.source i.filter) = fs

theorem awaits_of_open {i : Intake φ} (hx : i.exhausted = false) {ps : List Pull} (h : i.feed.Holds ps) :
    i.Awaits (ps.map (Pull.fate i.source i.filter)) := by
  unfold Awaits
  rw [hx]
  exact ⟨ps, h, rfl⟩

theorem Awaits.eq_nil {i : Intake φ} {fs : List Fate} (h : i.Awaits fs) (hx : i.exhausted = true) : fs = [] := by
  unfold Awaits at h
  rw [if_pos hx] at h
  exact h

variable {view : Option View} {i j : Intake φ} {fs : List Fate}

private theorem Draws.awaits {fate : Fate} (d : Draws view i fate j) (stateless : Judge.Stateless i.filter)
    (hx : i.exhausted = false) (h : i.Awaits fs) : fate = fs.headD .ended ∧ (fate ≠ .ended → j.Awaits fs.tail) := by
  unfold Awaits at h
  rw [if_neg (by simp [hx])] at h
  obtain ⟨ps, hps, rfl⟩ := h
  obtain ⟨hfate, hc, ha⟩ := d.of_stateless stateless
  constructor
  · rw [hfate, hps.next_fst]
    cases ps <;> rfl
  · intro hne
    have hj := awaits_of_open (i := j) (by rw [d.exhausted_eq hx]; exact decide_eq_false hne)
      (by rw [d.feed_eq]; exact hps.next_snd)
    rw [d.source_eq, filter_congr hc ha] at hj
    rw [← List.map_tail]
    exact hj

/-- Asking for the next token gives the first fate that is not a rejection, and goes on with those behind it. -/
theorem Fetches.awaits {n : Nat} {r : Except Halt Token} (h : Fetches view n i r j)
    (stateless : Judge.Stateless i.filter) (hi : i.Awaits fs) (hn : fs.length < n) :
    match Fate.first fs with
    | (.lost f, rest) => r = .error (.failed f) ∧ j.exhausted = false ∧ j.Awaits rest
    | (.kept t, rest) => r = .ok t ∧ j.exhausted = false ∧ j.Awaits rest
    | _ => r = .ok i.eof ∧ j.exhausted = true ∧ j.Awaits [] := by
  induction h generalizing fs with
  | exhausted hx =>
    obtain rfl := hi.eq_nil hx
    exact ⟨rfl, hx, hi⟩
  | impatient => exact absurd hn (Nat.not_lt_zero _)
  | ended hx d =>
    rename_i n i j
    have hj : j.exhausted = true := by simpa using d.exhausted_eq hx
    have hnil : j.Awaits [] := by
      unfold Awaits
      rw [if_pos hj]
    have hfirst : ∃ rest, Fate.first fs = (.ended, rest) := by
      have hfate := (d.awaits stateless hx hi).1
      cases fs with
      | nil => exact ⟨[], rfl⟩
      | cons f fs =>
        obtain rfl : Fate.ended = f := hfate
        exact ⟨fs, rfl⟩
    obtain ⟨rest, hfirst⟩ := hfirst
    rw [hfirst]
    exact ⟨by rw [eof, d.source_eq]; rfl, hj, hnil⟩
  | lost hx d =>
    obtain ⟨hfate, hj⟩ := d.awaits stateless hx hi
    cases fs with
    | nil => cases hfate
    | cons f fs =>
      obtain rfl : Fate.lost _ = f := hfate
      exact ⟨rfl, by simpa using d.exhausted_eq hx, hj fun he => by cases he⟩
  | kept hx d =>
    obtain ⟨hfate, hj⟩ := d.awaits stateless hx hi
    cases fs with
    | nil => cases hfate
    | cons f fs =>
      obtain rfl : Fate.kept _ = f := hfate
      exact ⟨rfl, by simpa using d.exhausted_eq hx, hj fun he => by cases he⟩
  | rejected hx d rest ih =>
    obtain ⟨hfate, hj⟩ := d.awaits stateless hx hi
    obtain ⟨-, hc, ha⟩ := d.of_stateless stateless
    cases fs with
    | nil => cases hfate
    | cons f fs =>
      obtain rfl : Fate.rejected _ = f := hfate
      have hj := hj fun he => by cases he
      have hrest := ih (by rw [filter_congr hc ha]; exact stateless) hj (Nat.lt_of_succ_lt_succ hn)
      rw [eof, d.source_eq] at hrest
      exact hrest

end Intake

namespace Lexer

variable {φ : Type} [Judge φ] {patience : Nat}

/-! ### One advance -/

private theorem advance_awaits {l : Lexer φ} {fs : List Fate} (stateless : Judge.Stateless l.intake.filter)
    (h : l.intake.Awaits fs) (hn : fs.length < patience) :
    let r := (l.advance patience).1
    let l' := (l.advance patience).2
    l'.intake.source = l.intake.source ∧ l'.intake.filter = l.intake.filter ∧
      match Fate.first fs with
      | (.lost f, rest) => r = .error (.failed f) ∧ l'.previous = l.previous ∧ l'.current = l.current ∧
          l'.intake.exhausted = false ∧ l'.intake.Awaits rest
      | (.kept t, rest) => r = .ok l.current ∧ l'.previous = some l.current ∧ l'.current = t ∧
          l'.intake.exhausted = false ∧ l'.intake.Awaits rest
      | _ => r = .ok l.current ∧ l'.previous = some l.current ∧ l'.current = l.intake.eof ∧
          l'.intake.exhausted = true ∧ l'.intake.Awaits [] := by
  have ha := l.advance_advances patience
  revert ha
  generalize (l.advance patience).1 = r
  generalize (l.advance patience).2 = l'
  intro ha
  cases ha with
  | moved hf =>
    obtain ⟨hc, hact⟩ := hf.of_stateless stateless
    refine ⟨hf.source_eq, Intake.filter_congr hc hact, ?_⟩
    have hres := hf.awaits stateless h hn
    split at hres
    · cases hres.1
    · obtain ⟨ht, hx, hj⟩ := hres
      exact ⟨rfl, rfl, Except.ok.inj ht, hx, hj⟩
    · obtain ⟨ht, hx, hj⟩ := hres
      exact ⟨rfl, rfl, Except.ok.inj ht, hx, hj⟩
  | halted hf =>
    obtain ⟨hc, hact⟩ := hf.of_stateless stateless
    refine ⟨hf.source_eq, Intake.filter_congr hc hact, ?_⟩
    have hres := hf.awaits stateless h hn
    split at hres
    · obtain ⟨he, hx, hj⟩ := hres
      exact ⟨he, rfl, rfl, hx, hj⟩
    · cases hres.1
    · cases hres.1

/-- A number of advances, whatever comes of them. -/
def attempts (patience : Nat) (l : Lexer φ) (n : Nat) : List (Except Halt Answer) × Lexer φ :=
  l.run patience (List.replicate n .advance)

private theorem attempts_succ (l : Lexer φ) (n : Nat) :
    l.attempts patience (n + 1) =
      ((l.advance patience).1.map (fun t => .token (some t)) :: ((l.advance patience).2.attempts patience n).1,
        ((l.advance patience).2.attempts patience n).2) := rfl

private theorem length_attempts (l : Lexer φ) (n : Nat) : (l.attempts patience n).1.length = n := by
  induction n generalizing l with
  | zero => rfl
  | succ n ih => rw [attempts_succ, List.length_cons, ih]

/-- Two lexers that differ in what fails only: up to the end they will keep the same tokens, and in `c` no item is
lost. -/
structure Alike (p : Option φ) (fs gs : List Fate) (d c : Lexer φ) : Prop where
  source_eq : d.intake.source = c.intake.source
  filter_left : d.intake.filter = p
  filter_right : c.intake.filter = p
  previous_eq : d.previous = c.previous
  current_eq : d.current = c.current
  exhausted_eq : d.intake.exhausted = c.intake.exhausted
  awaits_left : d.intake.Awaits fs
  awaits_right : c.intake.Awaits gs
  tokens_eq : Fate.tokens fs = Fate.tokens gs
  failures_eq : Fate.failures gs = []

namespace Alike

variable {p : Option φ} {fs gs : List Fate} {d c : Lexer φ}

/-- An advance of `d` fails, which is one of its failures, and `c` stands still; or both give the same token. -/
theorem advance (h : Alike p fs gs d c) (stateless : Judge.Stateless p) (hd : fs.length < patience)
    (hc : gs.length < patience) :
    (∃ f fs', (d.advance patience).1 = .error (.failed f) ∧ Alike p fs' gs (d.advance patience).2 c ∧
      Fate.failures fs = f :: Fate.failures fs' ∧ fs'.length < fs.length) ∨
    ∃ fs' gs', (d.advance patience).1 = .ok d.current ∧ (c.advance patience).1 = .ok d.current ∧
      Alike p fs' gs' (d.advance patience).2 (c.advance patience).2 ∧ Fate.failures fs = Fate.failures fs' ∧
      gs'.length ≤ gs.length ∧
      ((d.advance patience).2.intake.exhausted = true ∧ fs' = [] ∨ fs'.length < fs.length) := by
  obtain ⟨hds, hdf, hdl⟩ := advance_awaits (by rw [h.filter_left]; exact stateless) h.awaits_left hd
  obtain ⟨hcs, hcf, hcl⟩ := advance_awaits (by rw [h.filter_right]; exact stateless) h.awaits_right hc
  have hfs := Fate.first_first fs
  have hgs := Fate.first_first gs
  rcases hfirst : Fate.first fs with ⟨fate, fs'⟩
  rcases hsecond : Fate.first gs with ⟨gate, gs'⟩
  rw [hfirst] at hdl hfs
  rw [hsecond] at hcl hgs
  have htokens := h.tokens_eq
  have hnone := h.failures_eq
  cases hfs with
  | lost ht hf hlt =>
    obtain ⟨hr, hprevious, hcurrent, hx, ha⟩ := hdl
    have hopen : d.intake.exhausted = false := by
      rw [← Bool.not_eq_true]
      intro hx
      rw [h.awaits_left.eq_nil hx] at hlt
      exact Nat.not_lt_zero _ hlt
    -- The item is lost to `d`, and `c` never had it: only `d` moves.
    refine .inl ⟨_, fs', hr, ?_, hf, hlt⟩
    exact ⟨hds.trans h.source_eq, hdf.trans h.filter_left, h.filter_right, hprevious.trans h.previous_eq,
      hcurrent.trans h.current_eq, by rw [hx, ← h.exhausted_eq, hopen], ha, h.awaits_right, by rw [← ht, htokens],
      hnone⟩
  | kept ht hf hlt =>
    -- Nothing is lost in `c`, and it will keep the same tokens, so its next one is the same.
    rw [ht] at htokens
    cases hgs with
    | lost _ hg => cases hg.symm.trans hnone
    | ended hg => cases htokens.trans hg
    | kept hg hgf hglt =>
      obtain ⟨rfl, hrest⟩ := List.cons.inj (htokens.trans hg)
      obtain ⟨hr, hprevious, hcurrent, hx, ha⟩ := hdl
      obtain ⟨hr', hprevious', hcurrent', hx', ha'⟩ := hcl
      refine .inr ⟨fs', gs', hr, by rw [hr', h.current_eq], ?_, hf, Nat.le_of_lt hglt, .inr hlt⟩
      exact ⟨by rw [hds, hcs, h.source_eq], hdf.trans h.filter_left, hcf.trans h.filter_right,
        by rw [hprevious, hprevious', h.current_eq], by rw [hcurrent, hcurrent'], by rw [hx, hx'], ha, ha', hrest,
        hgf.symm.trans hnone⟩
  | ended ht hf =>
    rw [ht] at htokens
    cases hgs with
    | lost _ hg => cases hg.symm.trans hnone
    | kept hg => cases htokens.trans hg
    | ended =>
      obtain ⟨hr, hprevious, hcurrent, hx, ha⟩ := hdl
      obtain ⟨hr', hprevious', hcurrent', hx', ha'⟩ := hcl
      refine .inr ⟨[], [], hr, by rw [hr', h.current_eq], ?_, hf, Nat.zero_le _, .inl ⟨hx, rfl⟩⟩
      exact ⟨by rw [hds, hcs, h.source_eq], hdf.trans h.filter_left, hcf.trans h.filter_right,
        by rw [hprevious, hprevious', h.current_eq], by rw [hcurrent, hcurrent', Intake.eof, h.source_eq]; rfl,
        by rw [hx, hx'], ha, ha', rfl, rfl⟩

/-! ### Advancing again and again -/

/-- What is met in `n` advances, whatever comes of them. -/
theorem attempts (h : Alike p fs gs d c) (stateless : Judge.Stateless p) (hd : fs.length < patience)
    (hc : gs.length < patience) (n : Nat) :
    ∃ k fs' gs', (∀ a ∈ (d.attempts patience n).1, a ≠ .error .impatient) ∧
      (d.attempts patience n).1.filter Except.isOk = (c.attempts patience k).1 ∧
      Alike p fs' gs' (d.attempts patience n).2 (c.attempts patience k).2 ∧
      (d.attempts patience n).1.filterMap Halt.failure? ++ Fate.failures fs' = Fate.failures fs ∧
      ((d.attempts patience n).2.intake.exhausted = true ∨ fs'.length + n ≤ fs.length) := by
  induction n generalizing fs gs d c with
  | zero => exact ⟨0, fs, gs, List.forall_mem_nil _, rfl, h, rfl, .inr (Nat.le_refl _)⟩
  | succ n ih =>
    rw [attempts_succ]
    -- An advance that fails is matched by none of `c`, so `n` goes down and `k` stays.
    rcases h.advance stateless hd hc with ⟨f, fs₁, hr, h₁, hf, hlt⟩ | ⟨fs₁, gs₁, hr, hr', h₁, hf, hle, hlt⟩
    · obtain ⟨k, fs', gs', himp, hoks, h', hfs', hend⟩ := ih h₁ (Nat.lt_trans hlt hd) hc
      rw [hr]
      refine ⟨k, fs', gs', ?_, hoks, h', ?_, hend.imp_right fun hle => by omega⟩
      · exact List.forall_mem_cons.2 ⟨(fun he => by cases he), himp⟩
      · rw [hf, ← hfs']
        rfl
    · have hd₁ : fs₁.length < patience := by
        rcases hlt with ⟨-, rfl⟩ | hlt
        · exact Nat.lt_of_le_of_lt (Nat.zero_le _) hd
        · exact Nat.lt_trans hlt hd
      obtain ⟨k, fs', gs', himp, hoks, h', hfs', hend⟩ := ih h₁ hd₁ (Nat.lt_of_le_of_lt hle hc)
      refine ⟨k + 1, fs', gs', ?_, ?_, ?_, ?_, ?_⟩
      · rw [hr]
        exact List.forall_mem_cons.2 ⟨(fun he => by cases he), himp⟩
      · rw [attempts_succ, hr, hr', ← hoks]
        rfl
      · rw [attempts_succ]
        exact h'
      · rw [hr, hf, ← hfs']
        rfl
      · rcases hend with hx | hle
        · exact .inl hx
        · rcases hlt with ⟨hx, rfl⟩ | hlt
          · obtain rfl : n = 0 := by
              rw [List.length_nil] at hle
              omega
            exact .inl hx
          · exact .inr (by omega)

/-- Every number of successes is reached. -/
theorem reaches (h : Alike p fs gs d c) (stateless : Judge.Stateless p) (hd : fs.length < patience)
    (hc : gs.length < patience) (n : Nat) :
    ∃ k, ((d.attempts patience k).1.filter Except.isOk).length = n := by
  generalize hm : fs.length + n = m
  induction m using Nat.strongRecOn generalizing fs gs d c n with
  | ind m ih =>
    cases n with
    | zero => exact ⟨0, rfl⟩
    | succ n =>
      rcases h.advance stateless hd hc with ⟨f, fs₁, hr, h₁, hf, hlt⟩ | ⟨fs₁, gs₁, hr, hr', h₁, hf, hle, hlt⟩
      · obtain ⟨k, hk⟩ := ih (fs₁.length + (n + 1)) (by omega) h₁ (Nat.lt_trans hlt hd) hc (n + 1) rfl
        refine ⟨k + 1, ?_⟩
        rw [attempts_succ, hr]
        exact hk
      · have hle₁ : fs₁.length ≤ fs.length := by
          rcases hlt with ⟨-, rfl⟩ | hlt
          · exact Nat.zero_le _
          · exact Nat.le_of_lt hlt
        obtain ⟨k, hk⟩ := ih (fs₁.length + n) (by omega) h₁ (Nat.lt_of_le_of_lt hle₁ hd)
          (Nat.lt_of_le_of_lt hle hc) n rfl
        refine ⟨k + 1, ?_⟩
        rw [attempts_succ, hr]
        exact congrArg (· + 1) hk

end Alike

/-- The lexer with other items still to be pulled. -/
def refed (l : Lexer φ) (ps : List Pull) : Lexer φ := { l with intake := { l.intake with feed := .ofList ps } }

/-- A caller who goes on after failures reads what is read without the items that are lost, and meets their failures up
to the end, once each. If a failure to make an item ends the feed, only what comes before is read, and that failure is
met last. -/
theorem retrying_ignores_failures {patience : Nat} {l : Lexer φ} (opened : l.intake.exhausted = false)
    (stateless : Judge.Stateless l.intake.filter) (items : List Pull) (closes : Bool)
    (holds : l.intake.feed.Holds (if closes then Feed.closing items else items)) (patient : items.length < patience) :
    let heard := if closes then items.takeWhile (fun a => a.failure?.isNone) else items
    let last := if closes then items.findSome? Pull.failure? else none
    let fates := heard.map (Pull.fate l.intake.source l.intake.filter)
    let good := heard.filter fun a => (a.fate l.intake.source l.intake.filter).failure?.isNone
    let failures := Fate.failures fates ++ if fates.any Fate.isEnd then [] else last.toList
    (∀ n,
      let (answers, l') := l.attempts patience n
      let oks := answers.filter Except.isOk
      let (answers', l'') := (l.refed good).attempts patience oks.length
      (∀ a ∈ answers, a ≠ .error .impatient) ∧ oks = answers' ∧
        l'.previous = l''.previous ∧ l'.current = l''.current ∧ l'.atEnd = l''.atEnd ∧
        answers.filterMap Halt.failure? <+: failures ∧
        (l'.intake.exhausted = true → answers.filterMap Halt.failure? = failures) ∧
        (items.length < n → l'.intake.exhausted = true)) ∧
    ∀ n, ∃ k, ((l.attempts patience k).1.filter Except.isOk).length = n := by
  intro heard last fates good failures
  have hfates : (if closes then Feed.closing items else items).map (Pull.fate l.intake.source l.intake.filter) =
      fates ++ last.toList.map Fate.lost := by
    cases closes with
    | false => exact (List.append_nil _).symm
    | true =>
      change (Feed.closing items).map _ = _
      rw [Feed.closing_eq, List.map_append, List.map_map]
      rfl
  have hgood : good.map (Pull.fate l.intake.source l.intake.filter) = fates.filter fun f => f.failure?.isNone := by
    rw [List.filter_map]
    rfl
  have hlast : Fate.tokens (last.toList.map Fate.lost) = [] ∧
      Fate.failures (last.toList.map Fate.lost) = last.toList := by
    cases last <;> exact ⟨rfl, rfl⟩
  have htokens : Fate.tokens (fates ++ last.toList.map Fate.lost) = Fate.tokens fates := by
    rw [Fate.tokens_append, hlast.1]
    split <;> exact List.append_nil _
  have hfailures : Fate.failures (fates ++ last.toList.map Fate.lost) = failures := by
    rw [Fate.failures_append, hlast.2]
  have hlength : (fates ++ last.toList.map Fate.lost).length ≤ items.length := by
    rw [← hfates, List.length_map]
    split
    · exact Feed.length_closing_le items
    · exact Nat.le_refl _
  have hshort : (fates.filter fun f => f.failure?.isNone).length ≤ items.length := by
    refine Nat.le_trans (List.length_filter_le _ _) (Nat.le_trans ?_ hlength)
    rw [List.length_append]
    exact Nat.le_add_right _ _
  have halike : Alike l.intake.filter (fates ++ last.toList.map Fate.lost) (fates.filter fun f => f.failure?.isNone) l
      (l.refed good) := by
    refine ⟨rfl, rfl, rfl, rfl, rfl, rfl, ?_, ?_, ?_, (Fate.tokens_failures_filter fates).2⟩
    · rw [← hfates]
      exact Intake.awaits_of_open opened holds
    · rw [← hgood]
      exact Intake.awaits_of_open (i := (l.refed good).intake) opened (Feed.holds_ofList good)
    · rw [htokens, (Fate.tokens_failures_filter fates).1]
  have hd := Nat.lt_of_le_of_lt hlength patient
  have hc := Nat.lt_of_le_of_lt hshort patient
  refine ⟨fun n => ?_, halike.reaches stateless hd hc⟩
  obtain ⟨k, fs', gs', himp, hoks, h', hfs', hend⟩ := halike.attempts stateless hd hc n
  obtain rfl : ((l.attempts patience n).1.filter Except.isOk).length = k := by rw [hoks, length_attempts]
  refine ⟨himp, hoks, h'.previous_eq, h'.current_eq, congrArg Token.isEof h'.current_eq, ?_, fun hx => ?_, fun hn => ?_⟩
  · rw [← hfailures, ← hfs']
    exact List.prefix_append _ _
  · rw [← hfailures, ← hfs', h'.awaits_left.eq_nil hx]
    exact (List.append_nil _).symm
  · exact hend.resolve_right (by omega)

/-- Between two words an item that cannot be made, one that is no token, and one that the filter fails on. -/
theorem retrying_ignores_failures_of_all_kinds :
    let items : List Pull := [.fail (.raised "lost"), .item (.foreign "int"), .item (.token ⟨"blank", " ", 2, none⟩),
      .item (.token ⟨"word", "cd", 3, none⟩)]
    let feed := Feed.ofList (.item (.token ⟨"word", "ab", 0, none⟩) :: items)
    let filter := Filter.ofKind "raise" (.raise "blank" "blank")
    ∃ l : Lexer Filter, (create 5 { source := ⟨"ab cd"⟩, feed, common := some filter } .default).1 = .ok l ∧
      let answers := (l.attempts 5 5).1
      let oks := answers.filter Except.isOk
      answers.filterMap Halt.failure? = [.raised "lost", .unsupported "int", .raised "blank"] ∧
        oks = ((l.refed [.item (.token ⟨"word", "cd", 3, none⟩)]).attempts 5 oks.length).1 := by
  intro items feed filter
  have holds : Feed.Holds ⟨feed.outcome, 1⟩ items := by
    intro k
    rw [Feed.outcome_ofList, Nat.add_comm]
    rfl
  have hgood : items.filter (fun a => (a.fate ⟨"ab cd"⟩ (some filter)).failure?.isNone) =
      [.item (.token ⟨"word", "cd", 3, none⟩)] := rfl
  have met : ∀ l : Lexer Filter, l.intake.exhausted = false → l.intake.source = ⟨"ab cd"⟩ →
      l.intake.filter = some filter → l.intake.feed = ⟨feed.outcome, 1⟩ →
      let answers := (l.attempts 5 5).1
      let oks := answers.filter Except.isOk
      answers.filterMap Halt.failure? = [.raised "lost", .unsupported "int", .raised "blank"] ∧
        oks = ((l.refed [.item (.token ⟨"word", "cd", 3, none⟩)]).attempts 5 oks.length).1 := by
    intro l hx hs hf hfeed
    have stateless : Judge.Stateless l.intake.filter := by
      rw [hf]
      exact Filter.stateless rfl
    obtain ⟨h, -⟩ := retrying_ignores_failures hx stateless items false (by rw [hfeed]; exact holds)
      (show items.length < 5 by decide)
    obtain ⟨-, hoks, -, -, -, -, hend, hlong⟩ := h 5
    simp only [hs, hf, Bool.false_eq_true, ↓reduceIte, hgood] at hoks hend
    exact ⟨(hend (hlong (by decide))).trans (by decide +kernel), hoks⟩
  exact ⟨_, rfl, met _ rfl rfl rfl rfl⟩

end Lexer

end Lookahead
