import Lookahead.Proofs.Laziness
import Lookahead.Proofs.Stopping

/-!
# Patience enough

On a feed that ends, a lexer can make only so many more pulls (`Intake.budget`), and a patience of that many is enough
for every operation: none loses patience, and more of it changes nothing (`Lexer.calm_call`). `Lexer.Calm` compares what
is done with some patience and with more; it is shown for the two operations that pull, and handed on to the others.
-/

namespace Lookahead

/-- The feed gives nothing from a position on. -/
def Feed.EndsAt (f : Feed) (m : Nat) : Prop := ∀ k, m ≤ k → f.outcome k = .stop

namespace Intake

variable {φ : Type}

/-- The number of pulls that were made. -/
def pulls (i : Intake φ) : Nat := i.record.countP Event.isPull

/-- How many pulls can be left, if the feed ends at a position: one for each item, and one that finds the end. -/
def budget (m : Nat) (i : Intake φ) : Nat := if i.exhausted then 0 else m - i.feed.taken + 1

theorem budget_of_open {m : Nat} {i : Intake φ} (h : i.exhausted = false) : i.budget m = m - i.feed.taken + 1 := by
  rw [budget, h]
  rfl

theorem budget_eq_zero_iff {m : Nat} {i : Intake φ} : i.budget m = 0 ↔ i.exhausted = true := by
  cases h : i.exhausted <;> simp [budget, h]

variable [Judge φ] {view : Option View} {m n : Nat} {i j : Intake φ}

theorem judge_pulls {t : Token} {v : Except Failure Bool} (h : i.judge view t = (v, j)) : j.pulls = i.pulls := by
  obtain ⟨-, -, -, asked, ha, hr⟩ := judge_frame h
  have hnone : asked.countP Event.isPull = 0 := by
    rw [List.countP_eq_zero]
    intro e he
    obtain ⟨f, rfl⟩ := ha e he
    simp [Event.isPull]
  rw [pulls, hr, List.countP_append, hnone, Nat.zero_add, pulls]

theorem Draws.pulls_eq {fate : Fate} (d : Draws view i fate j) : j.pulls = i.pulls + 1 := by
  have hpulled : ∀ {k : Intake φ}, k.pulls = i.pulls → (k.note (.pulled i.feed.taken fate)).pulls = i.pulls + 1 := by
    intro k hk
    rw [pulls, note_record, List.countP_cons_of_pos rfl, ← hk, pulls]
  cases d with
  | ended => exact hpulled (k := i.onward) rfl
  | unread => exact hpulled (k := i.onward) rfl
  | unjudged _ hj => exact hpulled (judge_pulls (i := i.onward) hj)
  | rejected _ hj => exact hpulled (judge_pulls (i := i.onward) hj)
  | kept _ hj => exact hpulled (judge_pulls (i := i.onward) hj)

/-- Every pull is paid from the budget. -/
theorem Draws.paid {fate : Fate} (d : Draws view i fate j) (hm : i.feed.EndsAt m) (hi : i.exhausted = false) :
    j.pulls + j.budget m ≤ i.pulls + i.budget m := by
  rw [d.pulls_eq, budget_of_open hi]
  cases hj : j.exhausted with
  | true =>
    rw [budget_eq_zero_iff.2 hj]
    omega
  | false =>
    -- The item was no end, so it stands before the end of the feed.
    have hitem : i.feed.taken < m := by
      rw [← Nat.not_le]
      intro hle
      have hended : i.fates view 0 = (.ended, i.filter) := by
        rw [fates, hm _ hle]
        rfl
      have hfate := congrArg Prod.fst (d.fate_eq.symm.trans hended)
      rw [d.exhausted_eq hi, decide_eq_false_iff_not] at hj
      exact hj hfate
    rw [budget_of_open hj, d.feed_eq, Feed.next_snd_taken]
    omega

omit [Judge φ] in
theorem Onward.endsAt (h : i.Onward j) (hm : i.feed.EndsAt m) : j.feed.EndsAt m := by
  intro k hk
  rw [h.1]
  exact hm k hk

theorem Draws.endsAt {fate : Fate} (d : Draws view i fate j) (hm : i.feed.EndsAt m) : j.feed.EndsAt m := by
  rw [d.feed_eq]
  exact hm

omit [Judge φ] in
/-- What others pull from the same feed leaves no more to pull. -/
theorem Onward.budget_le (h : i.Onward j) (hx : j.exhausted = i.exhausted) : j.budget m ≤ i.budget m := by
  rw [budget, budget, hx]
  split
  · exact Nat.le_refl _
  · exact Nat.succ_le_succ (Nat.sub_le_sub_left h.2 m)

namespace Fetches

variable {r : Except Halt Token}

theorem endsAt (h : Fetches view n i r j) (hm : i.feed.EndsAt m) : j.feed.EndsAt m := h.onward.endsAt hm

theorem paid (h : Fetches view n i r j) (hm : i.feed.EndsAt m) : j.pulls + j.budget m ≤ i.pulls + i.budget m := by
  induction h with
  | exhausted => exact Nat.le_refl _
  | impatient => exact Nat.le_refl _
  | ended hi d => exact d.paid hm hi
  | lost hi d => exact d.paid hm hi
  | kept hi d => exact d.paid hm hi
  | rejected hi d _ ih => exact Nat.le_trans (ih (d.endsAt hm)) (d.paid hm hi)

/-- The feed counts the pulls, too. -/
theorem pulls_add_taken (h : Fetches view n i r j) : j.pulls + i.feed.taken = i.pulls + j.feed.taken := by
  have hdraw : ∀ {i j : Intake φ} {fate : Fate}, Draws view i fate j →
      j.pulls + i.feed.taken = i.pulls + j.feed.taken := by
    intro i j fate d
    rw [d.pulls_eq, d.feed_eq, Feed.next_snd_taken]
    omega
  induction h with
  | exhausted => rfl
  | impatient => rfl
  | ended _ d => exact hdraw d
  | lost _ d => exact hdraw d
  | kept _ d => exact hdraw d
  | rejected _ d _ ih =>
    have hfirst := hdraw d
    omega

/-- Before the end, asking for a token makes a pull. -/
theorem pulls_lt (h : Fetches view n i r j) (hn : 0 < n) (hi : i.exhausted = false) : i.pulls < j.pulls := by
  have htaken := h.taken_lt hn hi
  have hadd := h.pulls_add_taken
  omega

/-- Before the end, asking for a token reduces the budget. -/
theorem budget_le (h : Fetches view n i r j) (hm : i.feed.EndsAt m) (hn : i.exhausted = false → 0 < n) :
    j.budget m ≤ i.budget m - 1 := by
  cases hi : i.exhausted with
  | true =>
    have hzero : i.budget m = 0 := budget_eq_zero_iff.2 hi
    rw [(h.eq_of_exhausted hi).2]
    omega
  | false =>
    have hpaid := h.paid hm
    have hlt := h.pulls_lt (hn hi) hi
    omega

/-- A patience that covers the budget is not lost. -/
theorem ne_impatient (h : Fetches view n i r j) (hm : i.feed.EndsAt m) (hn : i.budget m ≤ n) :
    r ≠ .error .impatient := by
  induction h with
  | exhausted => nofun
  | impatient hi =>
    rw [Nat.le_zero, budget_eq_zero_iff, hi] at hn
    cases hn
  | ended => nofun
  | lost => nofun
  | kept => nofun
  | rejected hi d _ ih =>
    have hpaid := d.paid hm hi
    rw [d.pulls_eq] at hpaid
    exact ih (d.endsAt hm) (by omega)

end Fetches

end Intake

namespace Lexer

variable {φ : Type} [Judge φ]

/-! ### Doing the same with more patience -/

/-- On lexers with the property `P`, what is done in `f` does not lose patience and leads to a lexer with the property
`Q`, and the same is done in `g`. -/
def Calm {α : Type} (P Q : Lexer φ → Prop) (f g : Doing φ α) : Prop :=
  ∀ l, P l → (f l).1 ≠ .error .impatient ∧ Q (f l).2 ∧ g l = f l

namespace Calm

variable {α β : Type} {P P' Q R : Lexer φ → Prop} {f f' g g' : Doing φ α}

omit [Judge φ]

theorem mono (h : Calm P Q f g) (hq : ∀ l, Q l → R l) : Calm P R f g := by
  intro l hl
  obtain ⟨hr, hf, he⟩ := h l hl
  exact ⟨hr, hq _ hf, he⟩

theorem also (h : Calm P Q f g) : Calm (fun l => P l ∧ P' l) Q f g := fun l hl => h l hl.1

theorem done (a : α) : Calm P P (fun l => (.ok a, l)) fun l => (.ok a, l) := fun _ hl => ⟨nofun, hl, rfl⟩

theorem andThen (h : Calm P Q f g) {k k' : α → Doing φ β} (hk : ∀ a, Calm Q Q (k a) (k' a)) :
    Calm P Q (fun l => Lexer.andThen (f l) k) fun l => Lexer.andThen (g l) k' := by
  intro l hl
  obtain ⟨hr, hf, he⟩ := h l hl
  dsimp only
  rw [he]
  rcases hs : f l with ⟨e | a, l'⟩
  · rw [hs] at hr hf
    exact ⟨fun h => hr (congrArg Except.error (Except.error.inj h)), hf, rfl⟩
  · rw [hs] at hf
    exact hk a l' hf

theorem goOn (h : Calm P Q f g) {k k' : Except Failure α → Doing φ β} (hk : ∀ r, Calm Q Q (k r) (k' r)) :
    Calm P Q (fun l => Lexer.goOn k (f l)) fun l => Lexer.goOn k' (g l) := by
  intro l hl
  obtain ⟨hr, hf, he⟩ := h l hl
  dsimp only
  rw [he]
  rcases hs : f l with ⟨(e | _) | a, l'⟩
  · rw [hs] at hf
    exact hk (.error e) l' hf
  · rw [hs] at hr
    exact absurd rfl hr
  · rw [hs] at hf
    exact hk (.ok a) l' hf

theorem map (h : Calm P Q f g) (t : α → β) :
    Calm P Q (fun l => ((f l).1.map t, (f l).2)) fun l => ((g l).1.map t, (g l).2) := by
  intro l hl
  obtain ⟨hr, hf, he⟩ := h l hl
  refine ⟨fun hi => hr (Halt.map_eq_error_iff.1 hi), hf, ?_⟩
  dsimp only
  rw [he]

/-- To look first at something that tells which of two is done. -/
theorem ite (see : Lexer φ → Bool) (h : Calm (fun l => P l ∧ see l = true) Q f g)
    (h' : Calm (fun l => P l ∧ see l = false) Q f' g') :
    Calm P Q (fun l => if see l then f l else f' l) fun l => if see l then g l else g' l := by
  intro l hl
  cases hs : see l with
  | true => simpa [hs] using h l ⟨hl, hs⟩
  | false => simpa [hs] using h' l ⟨hl, hs⟩

end Calm

/-! ### Lexers on a feed that ends -/

/-- Before the end, an advance reduces the budget. -/
theorem Advances.budget_le {patience m : Nat} {l l' : Lexer φ} {r : Except Halt Token} (h : Advances patience l r l')
    (hm : l.intake.feed.EndsAt m) (hp : l.intake.exhausted = false → 0 < patience) :
    l'.intake.budget m ≤ l.intake.budget m - 1 := by
  cases h with
  | moved hf => exact hf.budget_le hm hp
  | halted hf => exact hf.budget_le hm hp

/-- A lexer that found the end is at its end. -/
def Noticed (l : Lexer φ) : Prop := l.intake.exhausted = true → l.atEnd = true

omit [Judge φ] in
theorem Noticed.open_of {l : Lexer φ} (h : l.Noticed) (he : l.atEnd = false) : l.intake.exhausted = false := by
  rw [← Bool.not_eq_true] at he ⊢
  exact fun hx => he (h hx)

theorem noticed_of_fetches {view : Option View} {n : Nat} {i j : Intake φ} {t : Token}
    (h : Intake.Fetches view n i (.ok t) j) (previous : Option Token) (handler : Handler φ) :
    Noticed ⟨j, previous, t, handler⟩ := by
  intro hx
  obtain rfl := h.eq_eof hx
  exact Token.isEof_eof _

theorem noticed_of_halted {view : Option View} {n : Nat} {i j : Intake φ} {e : Halt}
    (h : Intake.Fetches view n i (.error e) j) (l : Lexer φ) : Noticed { l with intake := j } :=
  fun hx => absurd (h.exhausted_of_error.symm.trans hx) Bool.false_ne_true

theorem Noticed.stable {patience : Nat} : Stable patience (fun _ => True) (Noticed (φ := φ)) where
  failed _ := trivial
  remark _ hl := hl
  onerror _ hl := hl
  become _ hl := hl
  advance {l l' r} ha _ hl := by
    cases ha with
    | moved hf => exact noticed_of_fetches hf (some l.current) l.handler
    | halted hf => exact noticed_of_halted hf l
  filter {l l' f r} hf _ hl := by
    cases hf with
    | atEnd he => exact fun _ => he
    | failed _ hj => exact fun hx => hl ((Intake.judge_frame hj).2.2.1.symm.trans hx)
    | kept _ hj => exact fun hx => hl ((Intake.judge_frame hj).2.2.1.symm.trans hx)
    | replaced _ _ hn => exact noticed_of_fetches hn l.previous l.handler
    | halted _ _ hn => exact noticed_of_halted hn l

theorem Noticed.of_create {patience : Nat} {i : Intake φ} {handler : Handler φ} {l : Lexer φ}
    (h : (create patience i handler).1 = .ok l) : l.Noticed := by
  obtain ⟨t, j, rfl, -, hf⟩ := create_eq_ok h
  exact noticed_of_fetches hf none handler

/-- The feed ends at the position `m`, and the pulls so far and those that can be left are at most `b`. -/
structure Solvent (m b : Nat) (l : Lexer φ) : Prop where
  endsAt : l.intake.feed.EndsAt m
  spent : l.intake.pulls + l.intake.budget m ≤ b

namespace Solvent

variable {m b : Nat} {l : Lexer φ}

omit [Judge φ] in
/-- What pulls nothing and finds no end does not matter. -/
theorem of_intake (hl : Solvent m b l) (i : Intake φ) (hf : i.feed = l.intake.feed)
    (hx : i.exhausted = l.intake.exhausted) (hp : i.pulls = l.intake.pulls) (previous : Option Token) (t : Token)
    (handler : Handler φ) : Solvent m b ⟨i, previous, t, handler⟩ := by
  have hbudget : i.budget m = l.intake.budget m := by rw [Intake.budget, hx, hf, Intake.budget]
  exact ⟨hf ▸ hl.endsAt, by rw [hp, hbudget]; exact hl.spent⟩

theorem of_fetches {view : Option View} {n : Nat} {i : Intake φ} {r : Except Halt Token} (hl : Solvent m b l)
    (h : Intake.Fetches view n l.intake r i) (previous : Option Token) (t : Token) (handler : Handler φ) :
    Solvent m b ⟨i, previous, t, handler⟩ :=
  ⟨h.endsAt hl.endsAt, Nat.le_trans (h.paid hl.endsAt) hl.spent⟩

omit [Judge φ] in
private theorem note (hl : Solvent m b l) {e : Event φ} (he : e.isPull = false) : Solvent m b (l.note e) :=
  hl.of_intake (l.intake.note e) rfl rfl (List.countP_cons_of_neg (by simp [he])) _ _ _

omit [Judge φ] in
private theorem onerror (hl : Solvent m b l) (g : Handler φ) : Solvent m b (l.onerror g) :=
  hl.of_intake (l.intake.note (.handlerSet g)) rfl rfl rfl _ _ _

omit [Judge φ] in
private theorem become (hl : Solvent m b l) (g : Handler φ) : Solvent m b (l.become g) :=
  hl.of_intake l.intake rfl rfl rfl _ _ _

private theorem judged (hl : Solvent m b l) {f : Option φ} {i : Intake φ} {v : Except Failure Bool}
    (h : (l.refiltered f).judge (some l.view) l.current = (v, i)) : Solvent m b { l with intake := i } := by
  obtain ⟨-, hf, hx, -⟩ := Intake.judge_frame h
  exact hl.of_intake i hf hx (Intake.judge_pulls (i := l.refiltered f) h) _ _ _

theorem stable {patience : Nat} : Stable patience (fun _ => True) (Solvent (φ := φ) m b) where
  failed _ := trivial
  remark {l e} he hl := hl.note (by revert he; cases e <;> simp [Event.isRemark, Event.isPull])
  onerror g hl := hl.onerror g
  become g hl := hl.become g
  advance {l l' r} ha _ hl := by
    cases ha with
    | @moved t i hf => exact (hl.of_fetches hf (some l.current) t l.handler).note (e := .consumed l.current) rfl
    | halted hf => exact hl.of_fetches hf _ _ _
  filter {l l' f r} hf _ hl := by
    cases hf with
    | atEnd => exact hl.of_intake (l.refiltered f) rfl rfl rfl _ _ _
    | failed _ hj => exact hl.judged hj
    | kept _ hj => exact hl.judged hj
    | @replaced i j t _ hj hn =>
      exact ((hl.judged hj).of_fetches hn l.previous t l.handler).note (e := .discarded _) rfl
    | halted _ hj hn => exact (hl.judged hj).of_fetches hn _ _ _

end Solvent

/-! ### Operations -/

variable {m b n p q : Nat}

/-- The lexer can make at most `n` more pulls, and `b` of them with those that it made. -/
structure Bounded (m b n : Nat) (l : Lexer φ) : Prop where
  noticed : l.Noticed
  solvent : l.Solvent m b
  budget_le : l.intake.budget m ≤ n

namespace Bounded

variable {l : Lexer φ}

omit [Judge φ]

theorem mono {n' : Nat} (h : Bounded m b n l) (hn : n ≤ n') : Bounded m b n' l :=
  ⟨h.noticed, h.solvent, Nat.le_trans h.budget_le hn⟩

theorem budget_le_of_le (h : Bounded m b n l) (hb : b ≤ p) : l.intake.budget m ≤ p := by
  have hspent := h.solvent.spent
  omega

theorem note (h : Bounded m b n l) {e : Event φ} (he : e.isRemark = true) : Bounded m b n (l.note e) :=
  ⟨h.noticed, h.solvent.note (by revert he; cases e <;> simp [Event.isRemark, Event.isPull]), h.budget_le⟩

theorem onerror (h : Bounded m b n l) (g : Handler φ) : Bounded m b n (l.onerror g) :=
  ⟨h.noticed, h.solvent.onerror g, h.budget_le⟩

theorem become (h : Bounded m b n l) (g : Handler φ) : Bounded m b n (l.become g) :=
  ⟨h.noticed, h.solvent.become g, h.budget_le⟩

/-- A budget is left to a lexer that is not at its end. -/
theorem budget_pos (h : Bounded m b n l) (he : l.atEnd = false) : 0 < l.intake.budget m := by
  rw [Intake.budget_of_open (h.noticed.open_of he)]
  exact Nat.succ_pos _

theorem atEnd_of_zero (h : Bounded m b n l) (hn : n = 0) : l.atEnd = true := by
  subst hn
  exact h.noticed (Intake.budget_eq_zero_iff.1 (Nat.le_zero.1 h.budget_le))

end Bounded

section Calm

variable (hb : b ≤ p) (hpq : p ≤ q)
include hb hpq

theorem calm_advance : Calm (φ := φ) (Bounded m b n) (Bounded m b (n - 1)) (advance p) (advance q) := by
  intro l hl
  have ha := l.advance_advances p
  have hm := hl.solvent.endsAt
  have hp := hl.budget_le_of_le hb
  have hne : (l.intake.next (some l.view) p).1 ≠ .error .impatient := (Intake.fetches _ _ _).ne_impatient hm hp
  have hpos : l.intake.exhausted = false → 0 < p := by
    intro hi
    rw [Intake.budget_of_open hi] at hp
    omega
  refine ⟨fun h => ?_, ⟨Noticed.stable.advance ha (fun _ _ => trivial) hl.noticed,
    Solvent.stable.advance ha (fun _ _ => trivial) hl.solvent, ?_⟩, ?_⟩
  · rw [h] at ha
    obtain ⟨i, hf⟩ := ha.fetches_of_error
    exact hf.ne_impatient hm hp rfl
  · have hle := ha.budget_le hm hpos
    have hn := hl.budget_le
    omega
  · unfold advance next
    rw [Intake.next_of_le hne hpq]

theorem calm_filter {f : Option φ} : Calm (Bounded m b b) (Bounded m b b) (filter p f) (filter q f) := by
  intro l hl
  have hr := l.filter_refilters p f
  have hsolvent := Solvent.stable.filter hr (fun _ _ => trivial) hl.solvent
  -- The filter is asked about the current token, which costs nothing, before a token is fetched.
  have hjudged : ∀ {v : Except Failure Bool} {i : Intake φ}, (l.refiltered f).judge (some l.view) l.current = (v, i) →
      i.feed.EndsAt m ∧ i.budget m ≤ p := by
    intro v i hj
    obtain ⟨-, hf, hx, -⟩ := Intake.judge_frame hj
    have hbudget : i.budget m = l.intake.budget m := by
      rw [Intake.budget, hf, hx]
      rfl
    exact ⟨hf ▸ hl.solvent.endsAt, by rw [hbudget]; exact hl.budget_le_of_le hb⟩
  have hne : ∀ {r l'}, Refilters p f l r l' → r ≠ .error .impatient := by
    rintro r l' h rfl
    cases h with
    | halted _ hj hn =>
      obtain ⟨hm, hp⟩ := hjudged hj
      exact hn.ne_impatient hm hp rfl
  refine ⟨hne hr, ⟨Noticed.stable.filter hr (fun _ _ => trivial) hl.noticed, hsolvent, ?_⟩, ?_⟩
  · have hspent := hsolvent.spent
    omega
  · rw [filter_eq, filter_eq]
    cases l.atEnd with
    | true => rfl
    | false =>
      rcases hj : (l.refiltered f).judge (some l.view) l.current with ⟨_ | _ | _, i⟩
      · rfl
      · obtain ⟨hm, hp⟩ := hjudged hj
        have hnext : ({ l with intake := i } : Lexer φ).next q = ({ l with intake := i } : Lexer φ).next p := by
          unfold next
          rw [Intake.next_of_le ((Intake.fetches _ _ _).ne_impatient hm hp) hpq]
        simp only [hnext]
      · rfl

/-- A later advance costs no more than the budget that is left. -/
private theorem calm_advance_all : Calm (φ := φ) (Bounded m b b) (Bounded m b b) (advance p) (advance q) :=
  (calm_advance hb hpq).mono fun _ hl => hl.mono (Nat.sub_le _ _)

omit hb hpq [Judge φ] in
/-- To stay at the end, and to do something where a budget is left. -/
private theorem calm_atEnd {α : Type} (a : α) {f g : Doing φ α}
    (h : 0 < n → Calm (Bounded m b n) (Bounded m b n) f g) :
    Calm (Bounded m b n) (Bounded m b n) (fun l => if l.atEnd then (.ok a, l) else f l)
      fun l => if l.atEnd then (.ok a, l) else g l := by
  refine Calm.ite atEnd (Calm.done a).also fun l hl => ?_
  exact h (Nat.lt_of_lt_of_le (hl.1.budget_pos hl.2) hl.1.budget_le) l hl.1

private theorem calm_skip {stop : Token → Bool} {k k' : Nat} (hn : n ≤ k) (hk : k ≤ k') :
    Calm (φ := φ) (Bounded m b n) (Bounded m b n) (skip p stop k) (skip q stop k') := by
  induction k generalizing k' n with
  | zero =>
    -- Nothing is left to pull, so the lexer is at its end.
    intro l hl
    have hend := hl.atEnd_of_zero (Nat.le_zero.1 hn)
    rw [skip_of_atEnd hend, skip_of_atEnd hend]
    exact ⟨nofun, hl, rfl⟩
  | succ k ih =>
    obtain ⟨k', rfl⟩ := Nat.exists_eq_succ_of_ne_zero (Nat.ne_of_gt (Nat.lt_of_lt_of_le (Nat.succ_pos k) hk))
    rw [skip_succ, Nat.succ_eq_add_one, skip_succ]
    have hrest := ih (n := n - 1) (by omega) (Nat.le_of_succ_le_succ hk)
    have hmore := ((calm_advance hb hpq).andThen fun _ => hrest).mono fun _ hl => hl.mono (Nat.sub_le n 1)
    exact Calm.ite (fun l => l.atEnd || stop l.current) (Calm.done ()).also hmore.also

private theorem calm_drain {most : Bool} {k k' : Nat} (hk : most = true ∧ k' = k ∨ n ≤ k ∧ k ≤ k') :
    Calm (φ := φ) (Bounded m b n) (Bounded m b n) (drain p most k) (drain q most k') := by
  induction k generalizing k' n with
  | zero =>
    intro l hl
    rcases hk with ⟨rfl, rfl⟩ | ⟨hn, -⟩
    · have hzero : ∀ patience, l.drain patience true 0 = (.ok [], l) := by
        intro patience
        rw [drain_zero]
        dsimp only
        split <;> rfl
      rw [hzero, hzero]
      exact ⟨nofun, hl, rfl⟩
    · have hend := hl.atEnd_of_zero (Nat.le_zero.1 hn)
      rw [drain_of_atEnd hend, drain_of_atEnd hend]
      exact ⟨nofun, hl, rfl⟩
  | succ k ih =>
    have hpos : k' ≠ 0 := by omega
    obtain ⟨k', rfl⟩ := Nat.exists_eq_succ_of_ne_zero hpos
    rw [drain_succ, Nat.succ_eq_add_one, drain_succ]
    refine calm_atEnd [] fun _ => ?_
    have hk' : most = true ∧ k' = k ∨ n - 1 ≤ k ∧ k ≤ k' :=
      hk.imp (fun h => ⟨h.1, Nat.succ.inj h.2⟩) fun h => ⟨Nat.sub_le_of_le_add h.1, Nat.le_of_succ_le_succ h.2⟩
    have hrest := ih hk'
    exact ((calm_advance hb hpq).andThen fun t => hrest.map _).mono
      fun _ hl => hl.mono (Nat.sub_le _ _)

private theorem calm_accept {group : String} {value : Option String} :
    Calm (φ := φ) (Bounded m b b) (Bounded m b b) (accept p group value) (accept q group value) :=
  Calm.ite (fun l => l.current.fits group value)
    ((calm_advance_all hb hpq).map some).also (Calm.done none).also

private theorem calm_expectOr {f g : Mismatch → Doing φ Unit}
    (h : ∀ r, Calm (Bounded m b b) (Bounded m b b) (f r) (g r)) {group : String} {value : Option String} :
    Calm (φ := φ) (Bounded m b b) (Bounded m b b) (expectOr p f group value) (expectOr q g group value) := by
  have hreport : Calm (φ := φ) (Bounded m b b) (Bounded m b b) (fun l => report f group value l.current l)
      fun l => report g group value l.current l := by
    intro l hl
    exact ((h ⟨l.current, group, value⟩).map _) _ (hl.note (e := .expected _) rfl)
  rw [expectOr_eq_ite, expectOr_eq_ite]
  exact Calm.ite (fun l => l.current.fits group value) ((calm_advance_all hb hpq).map some).also hreport.also

private theorem calm_act (a : Act φ) : Calm (Bounded m b b) (Bounded m b b) (act p · a) (act q · a) := by
  cases a with
  | advance => exact (calm_advance_all hb hpq).map _
  | skip stop => exact (calm_skip hb hpq hb hpq).map _
  | filter f => exact (calm_filter hb hpq).map _

private theorem calm_carryOut (plan : Plan φ) :
    Calm (Bounded m b b) (Bounded m b b) (carryOut p plan) (carryOut q plan) := by
  induction plan using Plan.induct with
  | done r =>
    intro l hl
    rw [carryOut, carryOut]
    exact ⟨Halt.mapError_ne_impatient, hl, rfl⟩
  | look next ih =>
    intro l hl
    rw [carryOut, carryOut]
    exact ih l.view l hl
  | act a next ih =>
    intro l hl
    rw [carryOut, carryOut]
    exact (calm_act hb hpq a).goOn ih l hl
  | onerror h next ih =>
    intro l hl
    rw [carryOut, carryOut]
    exact ih _ (hl.onerror h)
  | become h next ih =>
    intro l hl
    rw [carryOut, carryOut]
    exact ih _ (hl.become h)
  | expect h group value next ihtold ih =>
    have hreact : ∀ r, Calm (Bounded m b b) (Bounded m b b) (react p h r) (react q h r) := by
      intro r l hl
      rw [react_eq, react_eq]
      exact ihtold r _ (hl.note rfl)
    intro l hl
    rw [carryOut, carryOut]
    exact (calm_expectOr hb hpq hreact).goOn ih _ (hl.become h)

private theorem calm_react (h : Handler φ) (r : Mismatch) :
    Calm (Bounded m b b) (Bounded m b b) (react p h r) (react q h r) := by
  intro l hl
  rw [react_eq, react_eq]
  exact calm_carryOut hb hpq (h.plan r) _ (hl.note rfl)

/-- A patience that covers the budget is not lost in any operation, and more of it changes nothing. -/
theorem calm_call (c : Call φ) : Calm (Bounded m b b) (Bounded m b b) (call p · c) (call q · c) := by
  cases c with
  | advance => exact (calm_advance_all hb hpq).map _
  | peek group value => exact fun l hl => ⟨Halt.mapError_ne_impatient, hl, rfl⟩
  | accept group value => exact (calm_accept hb hpq).map _
  | expect group value =>
    have hreact : ∀ r, Calm (φ := φ) (Bounded m b b) (Bounded m b b) (fun l => react p l.handler r l)
        fun l => react q l.handler r l := fun r l hl => calm_react hb hpq l.handler r l hl
    exact (calm_expectOr hb hpq hreact).map _
  | filter f => exact (calm_filter hb hpq).map _
  | onerror g => exact fun l hl => ⟨nofun, hl.onerror g, rfl⟩
  | drain most =>
    cases most with
    | none => exact (calm_drain hb hpq (.inr ⟨hb, hpq⟩)).map _
    | some k => exact (calm_drain hb hpq (.inl ⟨rfl, rfl⟩)).map _
  | describe => exact fun l hl => ⟨nofun, hl, rfl⟩

end Calm

end Lexer

end Lookahead
