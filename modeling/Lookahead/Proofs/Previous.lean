import Lookahead.Proofs.Failing
import Lookahead.Proofs.Parts

/-!
# The previous token

Of the parts that all operations are made of (`Lexer.HandsOut`), only an advance that has a result changes the previous
token (`Moves.previous_eq`). So this is the last of the tokens that were handed out, and it was current when it was
handed out (`HandsOut.last`). These tokens are on record, and so it does not matter by which parts one finds the way
(`HandsOut.unique`).
-/

namespace Lookahead

namespace Lexer

variable {φ : Type} [Judge φ] {patience : Nat} {l m l' : Lexer φ} {ts us : List Token}

theorem previous_of_advance_ok {t : Token} (h : l.advance patience = (.ok t, l')) :
    t = l.current ∧ l'.previous = some t := by
  have ha := l.advance_advances patience
  rw [h] at ha
  cases ha
  exact ⟨rfl, rfl⟩

theorem previous_of_advance_error {e : Halt} (h : l.advance patience = (.error e, l')) : l'.previous = l.previous := by
  have ha := l.advance_advances patience
  rw [h] at ha
  cases ha
  rfl

theorem Advances.consumed_eq {r : Except Halt Token} (h : Advances patience l r l') :
    l'.events.filterMap Event.consumed? = l.events.filterMap Event.consumed? ++ r.toOption.toList := by
  obtain ⟨drawn, hr, hd⟩ := h.record_eq
  unfold events Intake.events
  rw [List.filterMap_reverse, List.filterMap_reverse, hr, List.filterMap_append, List.filterMap_append,
    Event.filterMap_consumed?_of_isDraw hd]
  cases r with
  | ok t => exact List.reverse_cons
  | error e => exact (List.append_nil _).symm

theorem Refilters.consumed_eq {p : Option φ} {r : Except Halt Unit} (h : Refilters patience p l r l') :
    l'.events.filterMap Event.consumed? = l.events.filterMap Event.consumed? := by
  obtain ⟨last, drawn, hr, hd, hlast⟩ := h.record_eq
  have hlast : last.filterMap Event.consumed? = [] := by
    rcases hlast with rfl | ⟨rfl, -⟩ <;> rfl
  unfold events Intake.events
  rw [List.filterMap_reverse, List.filterMap_reverse, hr, List.filterMap_append, List.filterMap_append, hlast,
    Event.filterMap_consumed?_of_isDraw hd]
  rfl

/-! ### What is handed out on the way -/

namespace Moves

variable {o : Option Token}

theorem previous_eq (h : Moves patience l o l') : l'.previous = o.or l.previous := by
  cases h with
  | advanced ha => exact (previous_of_advance_ok ha).2
  | halted ha => exact previous_of_advance_error ha
  | filtered p => exact (l.filter_refilters patience p).previous_eq
  | onerror => rfl
  | became => rfl
  | remarked => rfl

/-- A token that is handed out is on record. -/
theorem consumed_eq (h : Moves patience l o l') :
    l'.events.filterMap Event.consumed? = l.events.filterMap Event.consumed? ++ o.toList := by
  have ha := l.advance_advances patience
  cases h with
  | advanced hr =>
    rw [hr] at ha
    exact ha.consumed_eq
  | halted hr =>
    rw [hr] at ha
    exact ha.consumed_eq
  | filtered p =>
    rw [(l.filter_refilters patience p).consumed_eq]
    exact (List.append_nil _).symm
  | onerror g => simp [events, Intake.events, Lexer.onerror, become, note, Event.consumed?]
  | became => exact (List.append_nil _).symm
  | @remarked e he =>
    have hnone : e.consumed? = none := by
      revert he
      cases e <;> simp [Event.isRemark, Event.consumed?]
    simp [events, Intake.events, note, hnone]

end Moves

namespace HandsOut

/-- The previous token is the one that was handed out last; if there is none, it is the same as before. -/
theorem previous_eq (h : HandsOut patience l ts l') : l'.previous = ts.getLast?.or l.previous := by
  induction h with
  | start => rfl
  | @step ts o _ _ _ hm ih =>
    rw [hm.previous_eq, ih, List.getLast?_append, Option.or_assoc]
    cases o <;> rfl

/-- The token that was handed out last was current then, and nothing was handed out since. -/
theorem last {t : Token} (h : HandsOut patience l ts l') (ht : ts.getLast? = some t) :
    ∃ before m m', ts = before ++ [t] ∧ HandsOut patience l before m ∧ m.current = t ∧
      m.advance patience = (.ok t, m') ∧ HandsOut patience m' [] l' := by
  induction h with
  | start => cases ht
  | @step ts o _ _ h hm ih =>
    cases o with
    | none =>
      rw [Option.toList_none, List.append_nil] at ht ⊢
      obtain ⟨before, m, m', hts, hbefore, hcurrent, hadvance, hrest⟩ := ih ht
      exact ⟨before, m, m', hts, hbefore, hcurrent, hadvance, hrest.aside hm⟩
    | some u =>
      obtain rfl : u = t := Option.some.inj (List.getLast?_concat.symm.trans ht)
      cases hm with
      | advanced ha => exact ⟨ts, _, _, rfl, h, (previous_of_advance_ok ha).1.symm, ha, .start⟩

theorem consumed_eq (h : HandsOut patience l ts l') :
    l'.events.filterMap Event.consumed? = l.events.filterMap Event.consumed? ++ ts := by
  induction h with
  | start => exact (List.append_nil _).symm
  | step _ hm ih => rw [hm.consumed_eq, ih, List.append_assoc]

theorem unique (h : HandsOut patience l ts l') (h' : HandsOut patience l us l') : ts = us :=
  List.append_cancel_left (h.consumed_eq.symm.trans h'.consumed_eq)

end HandsOut

/-! ### Calls -/

/-- A call that takes the current token returns it, and it is the previous token then. -/
theorem previous_of_passes {c : Call φ} (hc : c.passes l.current = true) {a : Answer}
    (hr : (l.call patience c).1 = .ok a) :
    a = .token (some l.current) ∧ (l.call patience c).2.previous = some l.current := by
  rw [call_of_passes hc] at hr ⊢
  rcases ha : l.advance patience with ⟨e | t, l'⟩
  · rw [ha] at hr
    cases hr
  · rw [ha] at hr
    obtain ⟨rfl, hprevious⟩ := previous_of_advance_ok ha
    exact ⟨(Except.ok.inj hr).symm, hprevious⟩

/-- A call that is one operation and hands out nothing, or halts, does not change the previous token. -/
theorem previous_of_single {c : Call φ} (hc : c.IsSingle l)
    (h : c.passes l.current = false ∨ ∃ e, (l.call patience c).1 = .error e) :
    (l.call patience c).2.previous = l.previous := by
  cases hp : c.passes l.current with
  | true =>
    obtain ⟨e, hr⟩ := h.resolve_left (by simp [hp])
    rw [call_of_passes hp] at hr ⊢
    have ha : (l.advance patience).1 = .error e := Halt.map_eq_error_iff.1 hr
    exact previous_of_advance_error (Prod.ext ha rfl)
  | false =>
    cases c with
    | advance => cases hp
    | peek => rfl
    | accept group value =>
      simp only [call]
      rw [accept_of_not_fits patience hp]
    | expect group value =>
      -- Without a match a handler takes part in a single operation only if it does not turn to the lexer.
      obtain ⟨h, hh⟩ := call_of_idle hp (hc hp) patience
      rw [hh]
      rfl
    | filter p => exact (l.filter_refilters patience p).previous_eq
    | onerror => rfl
    | drain => exact hc.elim
    | describe => rfl

/-- A lexer is made without a previous token. From then on the current token is one that the feed gave, or the one at
the end; and the previous token is the last of the tokens that were handed out, be it by a handler, which was current
when it was handed out, and it is missing if there are none. The same holds along one call. A call that takes the
current token makes it the previous one; a call that halts, finds no match or installs a filter leaves the previous
token as it was, unless a handler turns to the lexer, and then it depends on what that handed out. -/
theorem previous_handed_out_last {input : String} {feed : Feed} {f : Option φ} {handler : Handler φ} {l₀ : Lexer φ}
    (created : (create patience { source := ⟨input⟩, feed, common := f } handler).1 = .ok l₀)
    (calls : List (Call φ)) (c : Call φ) :
    let l := (l₀.run patience calls).2
    let r := (l.call patience c).1
    let l' := (l.call patience c).2
    l₀.previous = none ∧
    (l.current = .eof ⟨input⟩ ∨ ∃ k < l.intake.feed.taken, (feed.outcome k).read ⟨input⟩ = .ok (some l.current)) ∧
    (∃ ts, (∀ us, HandsOut patience l₀ us l ↔ us = ts) ∧ (l.previous = none ↔ ts = []) ∧
      ∀ t, l.previous = some t → ∃ before m m', ts = before ++ [t] ∧ HandsOut patience l₀ before m ∧ m.current = t ∧
        m.advance patience = (.ok t, m') ∧ HandsOut patience m' [] l) ∧
    (∃ ts, HandsOut patience l ts l' ∧ l'.previous = ts.getLast?.or l.previous) ∧
    (c.passes l.current = true → ∀ a, r = .ok a → a = .token (some l.current) ∧ l'.previous = some l.current) ∧
    (c.IsSingle l → c.passes l.current = false ∨ (∃ e, r = .error e) → l'.previous = l.previous) := by
  intro l r l'
  have hl : Grounded ⟨input⟩ feed.outcome l :=
    Grounded.stable.of_run (fun _ _ _ _ => trivial) (Grounded.of_create rfl rfl created)
  have hnone : l₀.previous = none := by
    obtain ⟨t, i, rfl, -⟩ := create_eq_ok created
    rfl
  obtain ⟨ts, h⟩ := run_handsOut patience l₀ calls
  have hprevious : l.previous = ts.getLast? := by rw [h.previous_eq, hnone, Option.or_none]
  refine ⟨hnone, ?_, ⟨ts, fun us => ⟨fun h' => h'.unique h, fun hus => hus ▸ h⟩, ?_, fun t ht => ?_⟩, ?_,
    fun hc a => previous_of_passes hc, previous_of_single⟩
  · cases hx : l.intake.exhausted with
    | true => exact .inl (hl.current_of_exhausted hx)
    | false => exact .inr (hl.current_of_open hx)
  · rw [hprevious, List.getLast?_eq_none_iff]
  · exact h.last (hprevious.symm.trans ht)
  · obtain ⟨us, h'⟩ := call_handsOut patience l c
    exact ⟨us, h', h'.previous_eq⟩

/-- A word was handed out. Then a filter passes over a mark, and a number is expected in vain. -/
theorem previous_handed_out_last_past_filter :
    let word : Token := ⟨"word", "ab", 0, some ⟨"ab;cd"⟩⟩
    let other : Token := ⟨"word", "cd", 3, some ⟨"ab;cd"⟩⟩
    let feed := Feed.ofList [.item (.token word), .item (.token ⟨"mark", ";", 2, none⟩), .item (.token other)]
    let p : Option Filter := some (.ofKind "groups" (.groups ["word"]))
    let record : List (Event Filter) := [.pulled 0 (.kept word), .created (Source.size ⟨"ab;cd"⟩)]
    let l₀ : Lexer Filter := ⟨{ source := ⟨"ab;cd"⟩, feed := feed.next.2, record }, none, word, .collect⟩
    let l := (l₀.run 3 [.advance, .filter p]).2
    let l' := (l.call 3 (.expect "number" none)).2
    (create 3 { source := ⟨"ab;cd"⟩, feed } .collect).1 = .ok l₀ ∧ l.current = other ∧ l.previous = some word ∧
      (∃ before m m', HandsOut 3 l₀ before m ∧ m.current = word ∧ m.advance 3 = (.ok word, m') ∧
        HandsOut 3 m' [] l) ∧
      l'.previous = some word := by
  intro word other feed p record l₀ l l'
  have created : (create 3 { source := ⟨"ab;cd"⟩, feed } .collect).1 = .ok l₀ := rfl
  have hword : l.previous = some word := rfl
  obtain ⟨-, -, ⟨ts, -, -, hlast⟩, -, -, hsame⟩ :=
    previous_handed_out_last created [.advance, .filter p] (.expect "number" none)
  obtain ⟨before, m, m', -, hbefore, hcurrent, hadvance, hrest⟩ := hlast word hword
  refine ⟨created, by decide +kernel, hword, ⟨before, m, m', hbefore, hcurrent, hadvance, hrest⟩, ?_⟩
  exact (hsame (fun _ => .done _) (.inl (by decide +kernel))).trans hword

/-- An expectation is not met and gives no token, but its handler advances, and there is a previous token after it. -/
theorem handler_hands_out :
    let word : Token := ⟨"word", "a", 0, some ⟨"ab"⟩⟩
    let other : Token := ⟨"word", "b", 1, some ⟨"ab"⟩⟩
    let feed := Feed.ofList [.item (.token word), .item (.token other)]
    let record : List (Event Filter) := [.pulled 0 (.kept word), .created (Source.size ⟨"ab"⟩)]
    let l : Lexer Filter := ⟨{ source := ⟨"ab"⟩, feed := feed.next.2, record }, none, word, .advance 1⟩
    let l' := (l.call 2 (.expect "number" none)).2
    (create 2 { source := ⟨"ab"⟩, feed } (.advance 1)).1 = .ok l ∧ l.current.fits "number" = false ∧
      (l.call 2 (.expect "number" none)).1 = .ok (.token none) ∧
      l'.previous = some word ∧ l'.previous ≠ l.previous := by
  intro word other feed record l l'
  have hword : l'.previous = some word := rfl
  refine ⟨rfl, rfl, rfl, hword, ?_⟩
  rw [hword]
  nofun

end Lexer

end Lookahead
