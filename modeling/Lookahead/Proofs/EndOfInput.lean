import Mathlib.Control.Monad.Basic
import Lookahead.Proofs.Operations
import Lookahead.Filter.Rule
import Lookahead.Tokenizer

/-!
# The end of the input

A lexer that found the end of its feed holds the token at the end of its text, and from then on it neither pulls nor
asks a filter (`Lexer.end_of_input_final`). The invariant is `Lexer.Grounded`: the current token is the one at the end
if the intake is exhausted, and was read off the feed otherwise.

A token that was read off the feed may claim the end, too. A lexer that holds one is at its end only until it advances.
-/

namespace Lookahead

/-- The size of the text whose end was reached. -/
def Event.ending? {φ : Type} : Event φ → Option Nat
  | reachedEnd size => some size
  | _ => none

/-- The message about the end of a text of a size. -/
def endMessage (size : Nat) : String := "Reached end of input at " ++ toString size

/-- The message tells of the end of a text. -/
def isEndMessage (m : String) : Bool := "Reached end of input".toList.isPrefixOf m.toList

private theorem isEndMessage_reached (s : String) : isEndMessage ("Reached end of input at " ++ s) = true := by
  rw [isEndMessage, String.toList_append]
  simp [List.isPrefixOf]

/-- A message that begins with another letter does not tell of the end. -/
private theorem isEndMessage_append {a : String} {c : Char} {cs : List Char} (h : a.toList = c :: cs) (hc : c ≠ 'R')
    (s : String) : isEndMessage (a ++ s) = false := by
  rw [isEndMessage, String.toList_append, h]
  simp [List.isPrefixOf, Ne.symm hc]

/-- The messages that tell of the end of a text belong to the events that are the end of a text. -/
theorem Event.message?_filter_isEndMessage {φ : Type} [Judge φ] (e : Event φ) :
    e.message?.filter isEndMessage = e.ending?.map endMessage := by
  cases e with
  | created size =>
    have h := isEndMessage_append (a := "Created lexer over ") rfl (by decide) (toString size ++ " chars")
    simp only [← String.append_assoc] at h
    exact Option.filter_some_neg h
  | judged => rfl
  | pulled => rfl
  | reachedEnd size => exact Option.filter_some_pos (isEndMessage_reached (toString size))
  | consumed => rfl
  | discarded => rfl
  | expected m =>
    have h := isEndMessage_append (a := "Expected ") rfl (by decide)
      (m.group ++ (", got " ++ (m.token.group ++ (" " ++ (Text.quote m.token.value ++ (" at " ++
        toString m.token.index))))))
    simp only [← String.append_assoc] at h
    exact Option.filter_some_neg h
  | delivered => rfl
  | filterSet f =>
    have h := isEndMessage_append (a := "Filter set to ") rfl (by decide) (Judge.labelOf f)
    exact Option.filter_some_neg h
  | handlerSet g =>
    have h := isEndMessage_append (a := "Error handler set to ") rfl (by decide) g.label
    exact Option.filter_some_neg h

namespace Intake

variable {φ : Type}

private theorem endings_of_asked {asked : List (Event φ)} (h : ∀ e ∈ asked, ∃ f t v, e = .judged f t v) :
    asked.filterMap Event.ending? = [] := by
  rw [List.filterMap_eq_nil_iff]
  intro e he
  obtain ⟨f, t, v, rfl⟩ := h e he
  rfl

variable [Judge φ] {view : Option View}

private theorem judge_endings {i j : Intake φ} {t : Token} {v : Except Failure Bool} (h : i.judge view t = (v, j)) :
    j.record.filterMap Event.ending? = i.record.filterMap Event.ending? := by
  obtain ⟨-, -, -, asked, ha, hr⟩ := judge_frame h
  rw [hr, List.filterMap_append, endings_of_asked fun e he => ⟨_, _, _, (ha e he).choose_spec⟩, List.nil_append]

private theorem Draws.endings {i j : Intake φ} {fate : Fate} (d : Draws view i fate j) :
    j.record.filterMap Event.ending? =
      (if fate = .ended then [i.source.size] else []) ++ i.record.filterMap Event.ending? := by
  obtain ⟨asked, ha, hr⟩ := d.record_eq
  rw [hr]
  split <;> simp [List.filterMap_cons, Event.ending?, endings_of_asked ha]

/-- The end is recorded once, when it is found. -/
private theorem Fetches.endings {n : Nat} {i j : Intake φ} {r : Except Halt Token} (h : Fetches view n i r j)
    (hi : i.record.filterMap Event.ending? = if i.exhausted then [i.source.size] else []) :
    j.record.filterMap Event.ending? = if j.exhausted then [j.source.size] else [] := by
  induction h with
  | exhausted => exact hi
  | impatient => exact hi
  | ended h d => rw [d.endings, hi, d.exhausted_eq h, d.source_eq, h]; rfl
  | lost h d => rw [d.endings, hi, d.exhausted_eq h, h]; rfl
  | kept h d => rw [d.endings, hi, d.exhausted_eq h, h]; rfl
  | rejected h d _ ih => exact ih (by rw [d.endings, hi, d.exhausted_eq h, h]; rfl)

end Intake

namespace Lexer

variable {φ : Type}

/-- The current token is the one at the end of the text `s` if the end was found, and else one that the feed gave; the
end was recorded if it was found. -/
structure Grounded (s : Source) (outcome : Nat → Pull) (l : Lexer φ) : Prop where
  source_eq : l.intake.source = s
  outcome_eq : l.intake.feed.outcome = outcome
  current_of_exhausted : l.intake.exhausted = true → l.current = .eof s
  current_of_open : l.intake.exhausted = false → ∃ k < l.intake.feed.taken, (outcome k).read s = .ok (some l.current)
  endings_eq : l.intake.record.filterMap Event.ending? = if l.intake.exhausted then [s.size] else []

namespace Grounded

variable {s : Source} {outcome : Nat → Pull} {l : Lexer φ}

/-- If the feed gives no token of the group that marks the end, only an exhausted lexer is at its end. -/
theorem atEnd_iff (h : Grounded s outcome l)
    (hg : ∀ k t, (outcome k).read s = .ok (some t) → t.group ≠ Token.eofGroup) :
    l.atEnd = true ↔ l.intake.exhausted = true := by
  constructor
  · intro he
    cases hx : l.intake.exhausted with
    | true => rfl
    | false =>
      obtain ⟨k, -, hk⟩ := h.current_of_open hx
      exact absurd (by simpa [Lexer.atEnd, Token.isEof] using he) (hg k _ hk)
  · intro hx
    rw [Lexer.atEnd, h.current_of_exhausted hx, Token.isEof_eof]

/-- What does not change the current token, and finds no end, keeps a lexer grounded. -/
private theorem of_intake (hl : Grounded s outcome l) (i : Intake φ) (hs : i.source = l.intake.source)
    (ho : i.feed.outcome = l.intake.feed.outcome) (ht : l.intake.feed.taken ≤ i.feed.taken)
    (hx : i.exhausted = l.intake.exhausted)
    (he : i.record.filterMap Event.ending? = l.intake.record.filterMap Event.ending?)
    (previous : Option Token) (handler : Handler φ) : Grounded s outcome ⟨i, previous, l.current, handler⟩ where
  source_eq := hs.trans hl.source_eq
  outcome_eq := ho.trans hl.outcome_eq
  current_of_exhausted h := hl.current_of_exhausted (hx.symm.trans h)
  current_of_open h := by
    obtain ⟨k, hk, hr⟩ := hl.current_of_open (hx.symm.trans h)
    exact ⟨k, Nat.lt_of_lt_of_le hk ht, hr⟩
  endings_eq := by
    change i.record.filterMap _ = if i.exhausted then _ else _
    rw [he, hx, hl.endings_eq]

private theorem note (hl : Grounded s outcome l) {e : Event φ} (he : e.ending? = none) :
    Grounded s outcome (l.note e) :=
  hl.of_intake (l.intake.note e) rfl rfl (Nat.le_refl _) rfl (by simp [he]) _ _

private theorem refiltered (hl : Grounded s outcome l) (f : Option φ) :
    Grounded s outcome { l with intake := l.refiltered f } :=
  hl.of_intake (l.refiltered f) rfl rfl (Nat.le_refl _) rfl rfl _ _

variable [Judge φ]

private theorem of_fetches {view : Option View} {n : Nat} {i j : Intake φ} {t : Token}
    (h : Intake.Fetches view n i (.ok t) j) (hs : i.source = s) (ho : i.feed.outcome = outcome)
    (he : i.record.filterMap Event.ending? = if i.exhausted then [s.size] else [])
    (previous : Option Token) (handler : Handler φ) : Grounded s outcome ⟨j, previous, t, handler⟩ := by
  subst hs ho
  have hend := h.endings he
  rw [h.source_eq] at hend
  refine ⟨h.source_eq, h.outcome_eq, fun hx => ?_, fun hx => ?_, hend⟩
  · exact (h.eq_eof hx).trans (congrArg Token.eof h.source_eq)
  · rcases h.of_ok with ⟨hx', -⟩ | ⟨-, k, -, hk, ht⟩
    · exact absurd (hx.symm.trans hx') (by simp)
    · exact ⟨k, by simp [hk], ht⟩

private theorem of_halted {view : Option View} {n : Nat} {i : Intake φ} {e : Halt} (hl : Grounded s outcome l)
    (h : Intake.Fetches view n l.intake (.error e) i) : Grounded s outcome { l with intake := i } := by
  have hopen : l.intake.exhausted = false := by
    rw [← Bool.not_eq_true]
    intro hx
    cases (h.eq_of_exhausted hx).1
  have he := h.endings (by rw [hl.endings_eq, hl.source_eq])
  rw [h.exhausted_of_error] at he
  refine hl.of_intake i h.source_eq h.outcome_eq h.taken_le (h.exhausted_of_error.trans hopen.symm) ?_ _ _
  rw [he, hl.endings_eq, hopen]
  rfl

private theorem of_judge {view : Option View} {i : Intake φ} {t : Token} {v : Except Failure Bool}
    (hl : Grounded s outcome l) (h : l.intake.judge view t = (v, i)) : Grounded s outcome { l with intake := i } := by
  obtain ⟨hs, hf, hx, -⟩ := Intake.judge_frame h
  exact hl.of_intake i hs (by rw [hf]) (Nat.le_of_eq (by rw [hf])) hx (Intake.judge_endings h) _ _

theorem stable {patience : Nat} : Stable patience (fun _ => True) (Grounded (φ := φ) s outcome) where
  failed _ := trivial
  remark he hl := hl.note (by revert he; rename_i e; cases e <;> simp [Event.isRemark, Event.ending?])
  onerror {l} g hl := hl.of_intake (l.intake.note (.handlerSet g)) rfl rfl (Nat.le_refl _) rfl rfl _ _
  become {l} _ hl := hl.of_intake l.intake rfl rfl (Nat.le_refl _) rfl rfl _ _
  advance ha _ hl := by
    cases ha with
    | moved h =>
      have hg := of_fetches h hl.source_eq hl.outcome_eq hl.endings_eq
      exact (hg _ _).note rfl
    | halted h => exact hl.of_halted h
  filter hf _ hl := by
    cases hf with
    | atEnd => exact hl.refiltered _
    | failed _ hj => exact (hl.refiltered _).of_judge hj
    | kept _ hj => exact (hl.refiltered _).of_judge hj
    | replaced _ hj hn =>
      have hi := (hl.refiltered _).of_judge hj
      have hg := of_fetches hn hi.source_eq hi.outcome_eq hi.endings_eq
      exact (hg _ _).note rfl
    | halted _ hj hn => exact ((hl.refiltered _).of_judge hj).of_halted hn

theorem of_create {patience : Nat} {i : Intake φ} {handler : Handler φ} (hi : i.exhausted = false)
    (hr : i.record = []) (h : (create patience i handler).1 = .ok l) : Grounded i.source i.feed.outcome l := by
  obtain ⟨t, k, rfl, -, hf⟩ := create_eq_ok h
  exact of_fetches hf rfl rfl (by simp [hi, hr, List.filterMap_cons, Event.ending?]) _ _

end Grounded

/-! ### After the end -/

/-- What may become of an exhausted lexer `l`: no more is pulled, and no filter is asked. -/
structure Spent (l l' : Lexer φ) : Prop where
  source_eq : l'.intake.source = l.intake.source
  feed_eq : l'.intake.feed = l.intake.feed
  exhausted : l'.intake.exhausted = true
  current_eq : l'.current = l.intake.eof
  record_eq : ∃ new, l'.intake.record = new ++ l.intake.record ∧
    ∀ e ∈ new, e.isPull = false ∧ e.isJudgement = false

namespace Spent

variable {l l' : Lexer φ}

theorem refl (hx : l.intake.exhausted = true) (hc : l.current = l.intake.eof) : Spent l l :=
  ⟨rfl, rfl, hx, hc, [], rfl, by simp⟩

private theorem of_note (h : Spent l l') {e : Event φ} (he : e.isPull = false ∧ e.isJudgement = false) {t : Token}
    (ht : t = l.intake.eof) (previous : Option Token) (handler : Handler φ) :
    Spent l ⟨l'.intake.note e, previous, t, handler⟩ := by
  obtain ⟨new, hn, hnew⟩ := h.record_eq
  refine ⟨h.source_eq, h.feed_eq, h.exhausted, ht, e :: new, congrArg (e :: ·) hn, ?_⟩
  exact List.forall_mem_cons.2 ⟨he, hnew⟩

theorem atEnd (h : Spent l l') : l'.atEnd = true := by
  rw [Lexer.atEnd, h.current_eq, Intake.eof, Token.isEof_eof]

variable [Judge φ]

theorem stable {patience : Nat} : Stable patience (fun _ => True) (Spent l) where
  failed _ := trivial
  remark {l' e} he h := by
    refine h.of_note ?_ h.current_eq _ _
    revert he
    cases e <;> simp [Event.isRemark, Event.isPull, Event.isJudgement]
  onerror g h := h.of_note ⟨rfl, rfl⟩ h.current_eq _ _
  become _ h := ⟨h.source_eq, h.feed_eq, h.exhausted, h.current_eq, h.record_eq⟩
  advance ha _ h := by
    cases ha with
    | moved hf =>
      obtain ⟨ht, rfl⟩ := hf.eq_of_exhausted h.exhausted
      cases ht
      exact h.of_note ⟨rfl, rfl⟩ (congrArg Token.eof h.source_eq) _ _
    | halted hf => cases (hf.eq_of_exhausted h.exhausted).1
  filter {l' l'' f r} hf _ h := by
    -- The current token is the one at the end, which no filter is asked about.
    cases hf with
    | atEnd =>
      have hi : Spent l { l' with intake := l'.intake.install f } :=
        ⟨h.source_eq, h.feed_eq, h.exhausted, h.current_eq, h.record_eq⟩
      exact hi.of_note ⟨rfl, rfl⟩ h.current_eq _ _
    | failed he => simp [h.atEnd] at he
    | kept he => simp [h.atEnd] at he
    | replaced he => simp [h.atEnd] at he
    | halted he => simp [h.atEnd] at he

end Spent

variable [Judge φ] {l : Lexer φ}

theorem advance_of_exhausted (h : l.intake.exhausted = true) (patience : Nat) :
    l.advance patience =
      (.ok l.current, ⟨l.intake.note (.consumed l.current), some l.current, l.intake.eof, l.handler⟩) := by
  simp [advance, next, Intake.next_of_exhausted h, note]

/-- At the end nothing fails but a value without a group, and a handler that is told of a mismatch. -/
theorem call_error_of_exhausted (hx : l.intake.exhausted = true) (he : l.atEnd = true) {patience : Nat} {c : Call φ}
    {e : Halt} (h : (l.call patience c).1 = .error e) :
    (∃ v, c = .peek none (some v) ∧ e = .failed .valueWithoutGroup) ∨
      ∃ group value, c = .expect group value ∧ l.current.fits group value = false ∧
        (react patience l.handler ⟨l.current, group, value⟩ (l.note (.expected ⟨l.current, group, value⟩))).1 =
          .error e := by
  rcases call_error h with ha | hp | hm | ⟨f, -, hf⟩ | ⟨most, -, hd⟩
  · rw [advance_of_exhausted hx] at ha
    cases ha
  · exact .inl hp
  · exact .inr hm
  · rw [filter_of_atEnd he] at hf
    cases hf
  · unfold drain at hd
    rw [if_pos he] at hd
    cases hd

/-- The lexer without its record. -/
def bare (l : Lexer φ) : Lexer φ := { l with intake := { l.intake with record := [] } }

/-- At the end a second advance changes nothing but the record. -/
theorem bare_advance_advance (h : l.intake.exhausted = true) (hc : l.current = l.intake.eof) (patience : Nat) :
    let once := (l.advance patience).2
    (once.advance patience).2.bare = once.bare := by
  intro once
  have ho : once = ⟨l.intake.note (.consumed l.current), some l.current, l.intake.eof, l.handler⟩ :=
    congrArg Prod.snd (advance_of_exhausted h patience)
  have hx : once.intake.exhausted = true := by rw [ho]; exact h
  rw [advance_of_exhausted hx, ho, hc]
  rfl

theorem Grounded.messages_eq {s : Source} {outcome : Nat → Pull} (h : Grounded s outcome l) :
    l.messages.filter isEndMessage = if l.intake.exhausted then [endMessage s.size] else [] := by
  rw [messages, List.filter_filterMap]
  simp only [Event.message?_filter_isEndMessage]
  rw [← List.map_filterMap, events, Intake.events, List.filterMap_reverse, h.endings_eq]
  split <;> rfl

/-- The end of the input is found once, told once, and final. -/
theorem end_of_input_final {patience : Nat} {input : String} {feed : Feed} {f : Option φ} {handler : Handler φ}
    {l₀ : Lexer φ} (created : (create patience { source := ⟨input⟩, feed, common := f } handler).1 = .ok l₀)
    (before after : List (Call φ)) :
    let l := (l₀.run patience before).2
    let l' := (l.run patience after).2
    l.messages.filter isEndMessage = (if l.intake.exhausted then [endMessage input.length] else []) ∧
    (l.intake.exhausted = true →
      l.source = ⟨input⟩ ∧ l.current = ⟨"eof", "", input.length, some l.source⟩ ∧
      l'.intake.exhausted = true ∧ l'.current = l.current ∧ l'.intake.feed = l.intake.feed ∧
      (∀ e ∈ l.since l', e.isPull = false ∧ e.isJudgement = false) ∧
      (∀ c e, (l'.call patience c).1 = .error e →
        (∃ v, c = .peek none (some v) ∧ e = .failed .valueWithoutGroup) ∨
          ∃ group value, c = .expect group value ∧ l'.current.fits group value = false ∧
            let m : Mismatch := ⟨l'.current, group, value⟩
            (react patience l'.handler m (l'.note (.expected m))).1 = .error e) ∧
      (l'.advance patience).1 = .ok l.current ∧
      let once := (l'.advance patience).2
      (once.advance patience).2.bare = once.bare) ∧
    ((∀ k t, (feed.outcome k).read ⟨input⟩ = .ok (some t) → t.group ≠ Token.eofGroup) →
      (l.atEnd = true ↔ l.intake.exhausted = true) ∧ (l.atEnd = true ↔ l.current.Same (.eof ⟨input⟩))) := by
  intro l l'
  have hg : Grounded ⟨input⟩ feed.outcome l :=
    Grounded.stable.of_run (fun _ _ _ _ => trivial) (Grounded.of_create rfl rfl created)
  refine ⟨hg.messages_eq, fun hx => ?_, fun hno => ⟨hg.atEnd_iff hno, fun he => ?_, fun hs => ?_⟩⟩
  · have hc := hg.current_of_exhausted hx
    have hl : Spent l l' := Spent.stable.of_run (fun _ _ _ _ => trivial) (Spent.refl hx (by
      rw [hc, Intake.eof, hg.source_eq]))
    have hc' : l'.current = l.current := by rw [hl.current_eq, hc, Intake.eof, hg.source_eq]
    obtain ⟨new, hn, hnew⟩ := hl.record_eq
    refine ⟨hg.source_eq, by rw [hc, source, hg.source_eq]; rfl, hl.exhausted, hc', hl.feed_eq, ?_,
      fun c e => call_error_of_exhausted hl.exhausted hl.atEnd, ?_, ?_⟩
    · rw [since_eq hn]
      exact fun e he => hnew e (List.mem_reverse.1 he)
    · rw [advance_of_exhausted hl.exhausted, hc']
    · exact bare_advance_advance hl.exhausted (by rw [hl.current_eq, Intake.eof, ← hl.source_eq]; rfl) patience
  · rw [hg.current_of_exhausted ((hg.atEnd_iff hno).1 he)]
    exact Token.Same.refl _
  · rw [Lexer.atEnd, Token.isEof, hs.1]
    rfl

/-- A token, an item that fails, and the end. -/
theorem end_of_input_final_after_failure :
    let feed := Feed.ofList [.item (.token ⟨"word", "ab", 0, none⟩), .fail (.raised "lost")]
    ∃ l₀ : Lexer Filter, (create 2 { source := ⟨"ab"⟩, feed } .collect).1 = .ok l₀ ∧
      let l := (l₀.run 2 [.advance, .advance]).2
      let l' := (l.run 2 [.filter (some (.ofKind "const" (.const false))), .expect "word" none]).2
      l.intake.exhausted = true ∧ l.messages.filter isEndMessage = [endMessage 2] ∧
      l.current = ⟨"eof", "", 2, some ⟨"ab"⟩⟩ ∧ (l'.advance 2).1 = .ok l.current := by
  intro feed
  refine ⟨_, rfl, ?_⟩
  obtain ⟨hm, hf, -⟩ := @end_of_input_final Filter _ 2 "ab" feed none .collect _ rfl [.advance, .advance]
    [.filter (some (.ofKind "const" (.const false))), .expect "word" none]
  obtain ⟨-, hc, -, -, -, -, -, ha, -⟩ := hf rfl
  exact ⟨rfl, hm, hc, ha⟩

/-! ### Tokens that claim the end -/

/-- The lexer is at its end, and it hands out and shows the token at the end of the text `s`. -/
def ShowsEnd (patience : Nat) (s : Source) (l : Lexer φ) : Prop :=
  l.atEnd = true ∧ (l.call patience .advance).1 = .ok (.token (some (.eof s))) ∧
    (l.call patience (.peek none none)).1 = .ok (.token (some (.eof s)))

theorem Spent.showsEnd {l l' : Lexer φ} (h : Spent l l') (patience : Nat) : l'.ShowsEnd patience l.source := by
  have hc : l'.current = .eof l.source := h.current_eq
  refine ⟨h.atEnd, ?_, ?_⟩
  · have ha : (l'.advance patience).1 = .ok l'.current := by rw [advance_of_exhausted h.exhausted]
    simp [call, ha, hc, Except.map]
  · change Except.ok (Answer.token (some l'.current)) = _
    rw [hc]

/-- If no item that was pulled claims the end, a lexer that is at its end stays there. Otherwise the current token may
be such an item; then the end was not found, and the next advance pulls on. -/
theorem end_lasts_unless_claimed {patience : Nat} {input : String} {feed : Feed} {f : Option φ} {handler : Handler φ}
    {l₀ : Lexer φ} (created : (create patience { source := ⟨input⟩, feed, common := f } handler).1 = .ok l₀)
    (before after : List (Call φ)) :
    let l := (l₀.run patience before).2
    let l' := (l.run patience after).2
    ((∀ k < l.intake.feed.taken, ∀ t, (feed.outcome k).read ⟨input⟩ = .ok (some t) → t.group ≠ Token.eofGroup) →
      l.atEnd = true → l'.ShowsEnd patience ⟨input⟩) ∧
    (l.atEnd = true → l.intake.exhausted = false →
      (∃ k < l.intake.feed.taken, (feed.outcome k).read ⟨input⟩ = .ok (some l.current)) ∧
        (0 < patience → l.intake.feed.taken < (l.call patience .advance).2.intake.feed.taken)) := by
  intro l l'
  have hg : Grounded ⟨input⟩ feed.outcome l :=
    Grounded.stable.of_run (fun _ _ _ _ => trivial) (Grounded.of_create rfl rfl created)
  constructor
  · intro hno he
    have hx : l.intake.exhausted = true := by
      cases hopen : l.intake.exhausted with
      | true => rfl
      | false =>
        obtain ⟨k, hk, hr⟩ := hg.current_of_open hopen
        exact absurd (by simpa [Lexer.atEnd, Token.isEof] using he) (hno k hk _ hr)
    have hc : l.current = l.intake.eof := by rw [hg.current_of_exhausted hx, Intake.eof, hg.source_eq]
    have hspent : Spent l l' := Spent.stable.of_run (fun _ _ _ _ => trivial) (Spent.refl hx hc)
    have hs := hspent.showsEnd patience
    rwa [source, hg.source_eq] at hs
  · intro he hopen
    exact ⟨hg.current_of_open hopen, fun hp => (l.advance_advances patience).taken_lt hp hopen⟩

/-- The end is found behind a token, and no filter and no expectation leads away from it. -/
theorem end_lasts_unless_claimed_behind_word :
    let feed := Feed.ofList [.item (.token ⟨"word", "ab", 0, none⟩)]
    ∃ l₀ : Lexer Filter, (create 2 { source := ⟨"ab"⟩, feed } .collect).1 = .ok l₀ ∧
      let l := (l₀.run 2 [.advance]).2
      let l' := (l.run 2 [.filter (some (.ofKind "const" (.const false))), .accept "eof" none]).2
      l.intake.feed.taken = 2 ∧ (feed.outcome 0).read ⟨"ab"⟩ = .ok (some ⟨"word", "ab", 0, some ⟨"ab"⟩⟩) ∧
      (feed.outcome 1).read ⟨"ab"⟩ = .ok none ∧ l.atEnd = true ∧ l'.ShowsEnd 2 ⟨"ab"⟩ := by
  intro feed
  refine ⟨_, rfl, rfl, rfl, rfl, rfl, ?_⟩
  obtain ⟨hstays, -⟩ := @end_lasts_unless_claimed Filter _ 2 "ab" feed none .collect _ rfl [.advance]
    [.filter (some (.ofKind "const" (.const false))), .accept "eof" none]
  refine hstays (fun k hk t ht => ?_) rfl
  have hk : k < 2 := hk
  rcases k with _ | _ | k
  · obtain rfl : _ = t := Option.some.inj (Except.ok.inj ht)
    decide
  · cases ht
  · omega

/-- A group of a pattern may have the name that marks the end. A lexer is at its end then in the middle of the text, and
the next advance hands out something else than the token at the end, and leads on to a word. -/
theorem claimed_end_passes :
    let row (r : Regex Nat Nat) : Regex Nat Nat := .seq r .empty
    let p : Pattern := ⟨"(?P<eof>;)|(?P<word>[a-z]+)",
      .alt (row (.group 0 (row (.one (.single ';')))))
        (row (.group 1 (row (.rep (.one ⟨[.range 'a' 'z'], false, false⟩) 1 none true)))), [some "eof", some "word"]⟩
    let feed := Feed.ofList ((p.scan ";ab").map fun m => .item (.matched m))
    let mark : Token := ⟨"eof", ";", 0, some ⟨";ab"⟩⟩
    let word : Token := ⟨"word", "ab", 1, some ⟨";ab"⟩⟩
    let record : List (Event Filter) := [.pulled 0 (.kept mark), .created (Source.size ⟨";ab"⟩)]
    let l : Lexer Filter := ⟨{ source := ⟨";ab"⟩, feed := feed.next.2, record }, none, mark, .default⟩
    (Recipe.text p.text).pattern = .ok p ∧ (Tokenizer.ofRecipe (.text p.text)).bind (· ";ab") = .ok feed ∧
      (create 2 { source := ⟨";ab"⟩, feed } .default).1 = .ok l ∧
      l.atEnd = true ∧ (l.call 2 .advance).1 = .ok (.token (some mark)) ∧ ¬ mark.Same (.eof ⟨";ab"⟩) ∧
      (l.run 2 [.advance]).2.atEnd = false ∧ (l.run 2 [.advance]).2.current = word := by
  intro row p feed mark word record l
  have accepted : (Recipe.text p.text).pattern = .ok p := by decide +kernel
  have reads : (Tokenizer.ofRecipe (.text p.text)).bind (· ";ab") = .ok feed := by
    rw [Tokenizer.ofRecipe, accepted]
    rfl
  exact ⟨accepted, reads, rfl, rfl, rfl, by decide, by decide +kernel, by decide +kernel⟩

end Lexer

end Lookahead
