import Lookahead.Proofs.Accounts
import Lookahead.Proofs.Parts

/-!
# Admission

The current token is one that the filter in force keeps, or it claims the end (`Lexer.Admits`); only after a filter was
installed and failed it may be one that was admitted before (`Lexer.current_admitted`). The filters have no state.

What a lexer does either installs no filter (`Follows`), or only what follows the last filter that it installs counts
(`HandsOut.last_filter`); that one is installed by a call or by a handler that a call tells of a mismatch
(`run_last_filter`).
-/

namespace Lookahead

/-- What is kept is what the filter says yes to. -/
theorem Pull.verdict_of_fate {φ : Type} [Judge φ] {s : Source} {p : Option φ} {a : Pull} {t : Token}
    (h : a.fate s p = .kept t) : Judge.verdict p t = .ok true := by
  unfold fate at h
  rcases hr : a.read s with f | _ | u
  · rw [hr] at h
    cases h
  · rw [hr] at h
    cases h
  · rw [hr] at h
    dsimp only at h
    rcases hv : Judge.verdict p u with f | _ | _
    · rw [hv] at h
      cases h
    · rw [hv] at h
      cases h
    · rw [hv] at h
      cases h
      exact hv

namespace Lexer

variable {φ : Type}

/-- Nothing was handed out, and no filter was installed. -/
structure Noted (l l' : Lexer φ) : Prop where
  current_eq : l'.current = l.current
  filter_eq : l'.intake.filter = l.intake.filter
  events_eq : ∃ new, l'.events = l.events ++ new ∧ ∀ e ∈ new, e.installed? = none ∧ e.consumed? = none

namespace Noted

variable {l l' l'' : Lexer φ}

theorem refl (l : Lexer φ) : Noted l l := ⟨rfl, rfl, [], by simp, by simp⟩

theorem note (l : Lexer φ) {e : Event φ} (h : e.installed? = none ∧ e.consumed? = none) : Noted l (l.note e) :=
  ⟨rfl, rfl, [e], List.reverse_cons, by simpa using h⟩

theorem remark (l : Lexer φ) {e : Event φ} (h : e.isRemark = true) : Noted l (l.note e) := by
  refine note l ?_
  cases e with
  | expected => exact ⟨rfl, rfl⟩
  | delivered => exact ⟨rfl, rfl⟩
  | _ => cases h

theorem onerror (l : Lexer φ) (h : Handler φ) : Noted l (l.onerror h) :=
  ⟨rfl, rfl, [.handlerSet h], List.reverse_cons, by simp [Event.installed?, Event.consumed?]⟩

theorem become (l : Lexer φ) (h : Handler φ) : Noted l (l.become h) := ⟨rfl, rfl, [], (List.append_nil _).symm, by simp⟩

end Noted

variable [Judge φ]

/-- The current token claims the end, or the filter in force keeps it. -/
def Admits (l : Lexer φ) : Prop := l.atEnd = true ∨ Judge.verdict l.intake.filter l.current = .ok true

/-- No filter was installed; if a token was handed out, the current token is admitted, and else it is the same. -/
structure Follows (l l' : Lexer φ) : Prop where
  filter_eq : l'.intake.filter = l.intake.filter
  events_eq : ∃ new, l'.events = l.events ++ new ∧ (∀ e ∈ new, e.installed? = none) ∧
    (new.filterMap Event.consumed? = [] → l'.current = l.current) ∧ (new.filterMap Event.consumed? ≠ [] → l'.Admits)

/-- A token that is fetched is admitted by the filter it was fetched with. -/
theorem admits_of_fetches {view : Option View} {n : Nat} {i j : Intake φ} {t : Token}
    (h : Intake.Fetches view n i (.ok t) j) (stateless : Judge.Stateless i.filter) :
    t.isEof = true ∨ Judge.verdict i.filter t = .ok true := by
  generalize hr : (.ok t : Except Halt Token) = r at h
  induction h with
  | exhausted hx =>
    cases hr
    exact .inl (Token.isEof_eof _)
  | impatient => cases hr
  | ended hx d =>
    cases hr
    exact .inl (Token.isEof_eof _)
  | lost => cases hr
  | kept hx d =>
    cases hr
    exact .inr (Pull.verdict_of_fate (d.of_stateless stateless).1.symm)
  | rejected hx d rest ih =>
    obtain ⟨-, hc, ha⟩ := d.of_stateless stateless
    have hf := Intake.filter_congr hc ha
    rw [← hf]
    exact ih (by rw [hf]; exact stateless) hr

namespace Follows

variable {patience : Nat} {l l' l'' : Lexer φ}

theorem of_noted (h : Noted l l') : Follows l l' := by
  obtain ⟨new, hn, hnew⟩ := h.events_eq
  refine ⟨h.filter_eq, new, hn, fun e he => (hnew e he).1, fun _ => h.current_eq, fun hc => ?_⟩
  exact absurd (List.filterMap_eq_nil_iff.2 fun e he => (hnew e he).2) hc

theorem refl (l : Lexer φ) : Follows l l := of_noted (.refl l)

theorem admits (h : Follows l l') (hl : l.Admits) : l'.Admits := by
  obtain ⟨new, -, -, hsame, hadmits⟩ := h.events_eq
  by_cases hc : new.filterMap Event.consumed? = []
  · unfold Admits atEnd
    rw [hsame hc, h.filter_eq]
    exact hl
  · exact hadmits hc

theorem trans (h : Follows l l') (h' : Follows l' l'') : Follows l l'' := by
  obtain ⟨new, hn, hi, hsame, hadmits⟩ := h.events_eq
  obtain ⟨new', hn', hi', hsame', hadmits'⟩ := h'.events_eq
  refine ⟨h'.filter_eq.trans h.filter_eq, new ++ new', by rw [hn', hn, List.append_assoc],
    List.forall_mem_append.2 ⟨hi, hi'⟩, fun hc => ?_, fun hc => ?_⟩
  · rw [List.filterMap_append, List.append_eq_nil_iff] at hc
    rw [hsame' hc.2, hsame hc.1]
  · by_cases hc' : new'.filterMap Event.consumed? = []
    · -- The last token was handed out in the first part, and it is admitted still.
      have hc : new.filterMap Event.consumed? ≠ [] := by
        intro hnil
        rw [List.filterMap_append, hnil, hc'] at hc
        exact hc rfl
      exact h'.admits (hadmits hc)
    · exact hadmits' hc'

theorem since (h : Follows l l') :
    (∀ e ∈ l.since l', e.installed? = none) ∧ ((∃ t, .consumed t ∈ l.since l') → l'.Admits) ∧
      ((∀ t, .consumed t ∉ l.since l') → l'.current = l.current) := by
  obtain ⟨new, hn, hi, hsame, hadmits⟩ := h.events_eq
  have hs : l.since l' = new := by
    unfold Lexer.since
    rw [hn, List.drop_left]
  rw [hs]
  refine ⟨hi, fun ⟨t, ht⟩ => hadmits fun hc => ?_, fun hc => hsame ?_⟩
  · exact absurd (List.filterMap_eq_nil_iff.1 hc _ ht) (Option.some_ne_none t)
  · rw [List.filterMap_eq_nil_iff]
    intro e he
    cases e with
    | consumed t => exact absurd he (hc t)
    | _ => rfl

theorem of_advances {r : Except Halt Token} (h : Advances patience l r l')
    (stateless : ∀ p : Option φ, Judge.Stateless p) : Follows l l' := by
  cases h with
  | moved hf =>
    rename_i t i
    obtain ⟨drawn, hd, hr⟩ := hf.record_eq
    obtain ⟨hc, ha⟩ := hf.of_stateless (stateless _)
    have hfilter : i.filter = l.intake.filter := Intake.filter_congr hc ha
    refine ⟨hfilter, drawn.reverse ++ [.consumed l.current], ?_, ?_, fun hc => ?_, fun _ => ?_⟩
    · unfold events Intake.events
      rw [Intake.note_record, hr]
      simp
    · intro e he
      rcases List.mem_append.1 he with he | he
      · exact Event.installed?_of_isDraw (hd e (List.mem_reverse.1 he))
      · rw [List.mem_singleton.1 he]
        rfl
    · rw [List.filterMap_append] at hc
      cases (List.append_eq_nil_iff.1 hc).2
    · unfold Admits
      rw [Intake.note_filter, hfilter]
      exact admits_of_fetches hf (stateless _)
  | halted hf =>
    rename_i e i
    obtain ⟨drawn, hd, hr⟩ := hf.record_eq
    obtain ⟨hc, ha⟩ := hf.of_stateless (stateless _)
    refine ⟨Intake.filter_congr hc ha, drawn.reverse, ?_, ?_, fun _ => rfl, fun hc => ?_⟩
    · unfold events Intake.events
      rw [hr, List.reverse_append]
    · exact fun e he => Event.installed?_of_isDraw (hd e (List.mem_reverse.1 he))
    · refine absurd (List.filterMap_eq_nil_iff.2 fun e he => ?_) hc
      exact Event.consumed?_of_isDraw (hd e (List.mem_reverse.1 he))

end Follows

theorem follows_steady (stateless : ∀ p : Option φ, Judge.Stateless p) (patience : Nat) (l : Lexer φ) :
    Steady patience (Follows l) fun _ => Follows l where
  stop _ h := h
  advance ha h := meets_self.2 (h.trans (Follows.of_advances ha stateless))

/-! ### The last filter -/

/-- After a filter was installed it is in force; unless that failed, the current token is admitted, and if it failed,
the current token is the same. -/
theorem filter_leaves (stateless : ∀ p : Option φ, Judge.Stateless p) (patience : Nat) (p : Option φ) (l : Lexer φ) :
    let (r, l') := l.filter patience p
    l'.intake.filter = p ∧ (r.isOk = true → l'.Admits) ∧ (r.isOk = false → l'.current = l.current) := by
  have h := l.filter_refilters patience p
  rcases hs : l.filter patience p with ⟨r, l'⟩
  rw [hs] at h
  have hjudge : ∀ {v : Except Failure Bool} {i : Intake φ},
      (l.refiltered p).judge (some l.view) l.current = (v, i) → i.filter = p ∧ Judge.verdict p l.current = v := by
    intro v i hj
    obtain ⟨asked, ha⟩ := Intake.judge_of_stateless (i := l.refiltered p) (stateless _) (some l.view) l.current
    obtain ⟨hv, rfl⟩ := Prod.mk.inj (ha.symm.trans hj)
    exact ⟨rfl, hv⟩
  cases h with
  | atEnd he => exact ⟨rfl, fun _ => .inl he, fun hr => by cases hr⟩
  | failed _ hj => exact ⟨(hjudge hj).1, (fun hr => by cases hr), fun _ => rfl⟩
  | kept _ hj =>
    obtain ⟨hf, hv⟩ := hjudge hj
    refine ⟨hf, fun _ => .inr ?_, fun hr => by cases hr⟩
    change Judge.verdict (Intake.filter _) l.current = _
    rw [hf, hv]
  | replaced _ hj hn =>
    obtain ⟨hf, -⟩ := hjudge hj
    obtain ⟨hc, ha⟩ := hn.of_stateless (stateless _)
    have hfilter := Intake.filter_congr hc ha
    refine ⟨hfilter.trans hf, fun _ => ?_, fun hr => by cases hr⟩
    unfold Admits
    rw [Intake.note_filter, hfilter]
    exact admits_of_fetches hn (stateless _)
  | halted _ hj hn =>
    obtain ⟨hf, -⟩ := hjudge hj
    obtain ⟨hc, ha⟩ := hn.of_stateless (stateless _)
    exact ⟨(Intake.filter_congr hc ha).trans hf, (fun hr => by cases hr), fun _ => rfl⟩

/-- Along parts of operations no filter is installed, or only what comes after the last one counts. -/
theorem HandsOut.last_filter (stateless : ∀ p : Option φ, Judge.Stateless p) {patience : Nat} {l l' : Lexer φ}
    {ts : List Token} (h : HandsOut patience l ts l') :
    Follows l l' ∨ ∃ p m us vs, HandsOut patience l us m ∧ HandsOut patience (m.filter patience p).2 vs l' ∧
      Follows (m.filter patience p).2 l' := by
  induction h with
  | start => exact .inl (.refl l)
  | @step ts o m m' h hm ih =>
    have hnext : Follows m m' → Follows l m' ∨ ∃ p m us vs, HandsOut patience l us m ∧
        HandsOut patience (m.filter patience p).2 vs m' ∧ Follows (m.filter patience p).2 m' := by
      intro hf
      rcases ih with ih | ⟨p, m₁, us, vs, h₁, h₂, ih⟩
      · exact .inl (ih.trans hf)
      · exact .inr ⟨p, m₁, us, _, h₁, h₂.step hm, ih.trans hf⟩
    have ha := m.advance_advances patience
    cases hm with
    | advanced hr =>
      rw [hr] at ha
      exact hnext (.of_advances ha stateless)
    | halted hr =>
      rw [hr] at ha
      exact hnext (.of_advances ha stateless)
    | filtered p => exact .inr ⟨p, m, ts, [], h, .start, .refl _⟩
    | onerror g => exact hnext (.of_noted (.onerror m g))
    | became g => exact hnext (.of_noted (.become m g))
    | remarked he => exact hnext (.of_noted (.remark m he))

/-- A call that neither installs a filter nor tells a handler of a mismatch installs none at all. -/
theorem call_follows (stateless : ∀ p : Option φ, Judge.Stateless p) (patience : Nat) {l : Lexer φ} {c : Call φ}
    (hp : ∀ p, c ≠ .filter p) (hm : c.mismatch? l.current = none) : Follows l (l.call patience c).2 := by
  have hsteady := follows_steady stateless patience l
  cases c with
  | advance => exact meets_self.1 (hsteady.of_advance (.refl l))
  | peek => exact .refl l
  | accept group value => exact meets_self.1 (hsteady.of_accept (.refl l))
  | expect group value =>
    have hf : l.current.fits group value = true := by simpa [Call.mismatch?] using hm
    have hpasses : (Call.expect group value : Call φ).passes l.current = true := hf
    rw [call_of_passes hpasses]
    exact meets_self.1 (hsteady.of_advance (.refl l))
  | filter p => exact absurd rfl (hp p)
  | onerror h => exact .of_noted (.onerror l h)
  | drain most => exact meets_self.1 (hsteady.of_drain (.refl l))
  | describe => exact .refl l

/-- In the lexer `l` the call `c` comes to install a filter in `m`, which is `l₂` after it: the call installs it, or a
handler does that is told of a mismatch. -/
def Installs (patience : Nat) (l : Lexer φ) (c : Call φ) (p : Option φ) (m l₂ : Lexer φ) : Prop :=
  c = .filter p ∧ m = l ∨ (∃ r, c.mismatch? l.current = some r) ∧ (∃ ts, HandsOut patience l ts m) ∧
    ∃ ts, HandsOut patience l₂ ts (l.call patience c).2

/-- Calls install no filter, or only what comes after the last one counts. -/
theorem run_last_filter (stateless : ∀ p : Option φ, Judge.Stateless p) (patience : Nat) (l : Lexer φ)
    (calls : List (Call φ)) :
    Follows l (l.run patience calls).2 ∨
      ∃ before c after p m, calls = before ++ c :: after ∧
        Installs patience (l.run patience before).2 c p m (m.filter patience p).2 ∧
        Follows (m.filter patience p).2 (l.run patience calls).2 := by
  induction calls generalizing l with
  | nil => exact .inl (.refl l)
  | cons c cs ih =>
    rcases ih (l.call patience c).2 with h | ⟨before, d, after, p, m, rfl, hd, h⟩
    · -- The first call is the last that may have installed a filter.
      by_cases hp : ∃ p, c = .filter p
      · obtain ⟨p, rfl⟩ := hp
        exact .inr ⟨[], .filter p, cs, p, l, rfl, .inl ⟨rfl, rfl⟩, h⟩
      · rw [not_exists] at hp
        cases hm : c.mismatch? l.current with
        | none => exact .inl ((call_follows stateless patience hp hm).trans h)
        | some r =>
          obtain ⟨ts, hts⟩ := call_handsOut patience l c
          rcases hts.last_filter stateless with hf | ⟨p, m, us, vs, hus, hvs, hf⟩
          · exact .inl (hf.trans h)
          · exact .inr ⟨[], c, cs, p, m, rfl, .inr ⟨⟨r, hm⟩, ⟨us, hus⟩, vs, hvs⟩, hf.trans h⟩
    · exact .inr ⟨c :: before, d, after, p, m, rfl, hd, h⟩

/-- The first token is admitted by the filter that a lexer is made with. -/
theorem create_admits (stateless : ∀ p : Option φ, Judge.Stateless p) {patience : Nat} {input : String} {feed : Feed}
    {p : Option φ} {handler : Handler φ} {l : Lexer φ}
    (h : (create patience { source := ⟨input⟩, feed, common := p } handler).1 = .ok l) :
    l.intake.filter = p ∧ l.Admits ∧ ∀ e ∈ l.events, e.installed? = none := by
  let i : Intake φ := { source := ⟨input⟩, feed, common := p }
  obtain ⟨t, j, rfl, -, hf⟩ := create_eq_ok h
  obtain ⟨hc, ha⟩ := hf.of_stateless (stateless _)
  obtain ⟨drawn, hd, hr⟩ := hf.record_eq
  have hfilter : j.filter = p := Intake.filter_congr hc ha
  refine ⟨hfilter, ?_, fun e he => ?_⟩
  · unfold Admits
    rw [show j.filter = (i.note (.created i.source.size)).filter from hfilter]
    exact admits_of_fetches hf (stateless _)
  · have he : e ∈ j.record := List.mem_reverse.1 he
    rw [hr] at he
    rcases List.mem_append.1 he with he | he
    · exact Event.installed?_of_isDraw (hd e he)
    · rw [List.mem_singleton.1 he]
      rfl

/-- Either no filter was installed and the current token is admitted by the filter that the lexer was made with; or the
filter that was installed last, by a call or by a handler, is in force, and the current token is admitted by it if its
installing had a result or a token was handed out since. Otherwise it is the token that was current before. -/
theorem current_admitted (stateless : ∀ p : Option φ, Judge.Stateless p) {patience : Nat} {input : String} {feed : Feed}
    {f₀ : Option φ} {handler : Handler φ} {l₀ : Lexer φ}
    (created : (create patience { source := ⟨input⟩, feed, common := f₀ } handler).1 = .ok l₀)
    (calls : List (Call φ)) :
    let l := (l₀.run patience calls).2
    ((∀ e ∈ l.events, e.installed? = none) ∧ l.intake.filter = f₀ ∧ l.Admits) ∨
      ∃ (before : List (Call φ)) (c : Call φ) (after : List (Call φ)) (p : Option φ) (m : Lexer φ),
        calls = before ++ c :: after ∧
        let result := (m.filter patience p).1
        let l₂ := (m.filter patience p).2
        Installs patience (l₀.run patience before).2 c p m l₂ ∧
          (∀ e ∈ l₂.since l, e.installed? = none) ∧ l.intake.filter = p ∧
          (result.isOk = true ∨ (∃ t, .consumed t ∈ l₂.since l) → l.Admits) ∧
          (result.isOk = false → (∀ t, .consumed t ∉ l₂.since l) → l.current = m.current) := by
  intro l
  obtain ⟨hfilter₀, hadmits₀, hevents₀⟩ := create_admits stateless created
  rcases run_last_filter stateless patience l₀ calls with h | ⟨before, c, after, p, m, hcalls, hc, h⟩
  · left
    refine ⟨?_, h.filter_eq.trans hfilter₀, h.admits hadmits₀⟩
    obtain ⟨new, hn, hi, -⟩ := h.events_eq
    rw [show l.events = l₀.events ++ new from hn]
    exact List.forall_mem_append.2 ⟨hevents₀, hi⟩
  · right
    obtain ⟨hfilter, hok, herror⟩ := filter_leaves stateless patience p m
    obtain ⟨hi, hadmits, hsame⟩ := h.since
    refine ⟨before, c, after, p, m, hcalls, hc, hi, h.filter_eq.trans hfilter, ?_, fun hfail hnone => ?_⟩
    · rintro (hok' | hc)
      · exact h.admits (hok hok')
      · exact hadmits hc
    · rw [← herror hfail]
      exact hsame hnone

/-- A filter fails on the current token, which stays; the token that comes by advancing is admitted. -/
theorem current_admitted_after_failure :
    let word : Token := ⟨"word", "ab", 0, some ⟨"ab cd"⟩⟩
    let blank : Token := ⟨"blank", " ", 2, some ⟨"ab cd"⟩⟩
    let feed := Feed.ofList [.item (.token word), .item (.token blank)]
    let record : List (Event StatelessFilter) := [.pulled 0 (.kept word), .created (Source.size ⟨"ab cd"⟩)]
    let l₀ : Lexer StatelessFilter := ⟨{ source := ⟨"ab cd"⟩, feed := feed.next.2, record }, none, word, .default⟩
    let filter : StatelessFilter := ⟨.ofKind "raise" (.raise "word" "no words"), rfl⟩
    let l₁ := (l₀.run 5 [.filter (some filter)]).2
    let l₂ := (l₀.run 5 [.filter (some filter), .advance]).2
    (create 5 { source := ⟨"ab cd"⟩, feed } .default).1 = .ok l₀ ∧
      l₁.current = word ∧ Judge.verdict l₁.intake.filter word = .error (.raised "no words") ∧
      l₂.current = blank ∧ l₂.Admits := by
  intro word blank feed record l₀ filter l₁ l₂
  have stateless : ∀ p : Option StatelessFilter, Judge.Stateless p := by
    rintro p g - view t
    exact g.judge_eq view t
  have created : (create 5 { source := ⟨"ab cd"⟩, feed } .default).1 = .ok l₀ := rfl
  refine ⟨created, by decide +kernel, rfl, by decide +kernel, ?_⟩
  rcases current_admitted stateless created [.filter (some filter), .advance] with
    ⟨-, -, h⟩ | ⟨before, c, after, p, m, hcalls, hc, -, -, h, -⟩
  · exact h
  · rcases before with _ | ⟨d, _ | ⟨e, before⟩⟩
    · -- The filter is the first call, and a token is handed out after it.
      obtain ⟨rfl, rfl⟩ := List.cons.inj hcalls
      rcases hc with ⟨hp, rfl⟩ | ⟨⟨r, hr⟩, -⟩
      · obtain rfl := Call.filter.inj hp
        exact h (.inr ⟨word, List.mem_of_getElem? (i := 2) rfl⟩)
      · cases hr
    · obtain ⟨hd, hcalls⟩ := List.cons.inj hcalls
      obtain ⟨rfl, -⟩ := List.cons.inj hcalls
      rcases hc with ⟨hp, -⟩ | ⟨⟨r, hr⟩, -⟩
      · cases hp
      · cases hr
    · exact absurd (List.cons.inj (List.cons.inj hcalls).2).2 (by simp)

end Lexer

end Lookahead
