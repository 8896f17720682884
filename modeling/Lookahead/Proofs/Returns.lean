import Lookahead.Proofs.Accounts
import Lookahead.Proofs.FilteredRun

/-!
# What calls return

A call gives up the tokens that it returns, and no others; only a call that installs a filter may give up the current
token and not return it (`Lexer.call_leaves`). What a handler does about a mismatch is told behind the mismatch.
-/

namespace Lookahead

/-- The event is a mismatch. -/
def Event.isMismatch {φ : Type} : Event φ → Bool
  | expected _ => true
  | _ => false

theorem Event.isMismatch_of_isDraw {φ : Type} {e : Event φ} (h : e.isDraw = true) : e.isMismatch = false := by
  revert h
  cases e <;> simp [isDraw, isMismatch]

/-- A call whose result is `r` gave up the tokens `ts` itself, the first of which was current before it. -/
def Call.Leaves {φ : Type} (current : Token) (r : Except Halt Answer) (ts : List Token) : Call φ → Prop
  | filter _ => ts = [] ∨ ts = [current] ∧ r = .ok .done
  | drain _ => ∀ us, r = .ok (.tokens us) → ts = us
  | c => ts = (c.taken r).toList

namespace Lexer

variable {φ : Type}

/-- The new events are no mismatches, and tell that the tokens `ts` were given up. -/
private def Leaves (l l' : Lexer φ) (ts : List Token) : Prop :=
  ∃ new, l'.events = l.events ++ new ∧ (∀ e ∈ new, e.isMismatch = false) ∧ new.filterMap Event.left? = ts

namespace Leaves

variable {patience : Nat} {l l' l'' : Lexer φ} {ts us : List Token}

private theorem refl : Leaves l l [] := ⟨[], by simp, by simp, rfl⟩

private theorem trans (h : Leaves l l' ts) (h' : Leaves l' l'' us) : Leaves l l'' (ts ++ us) := by
  obtain ⟨new, he, hm, ht⟩ := h
  obtain ⟨new', he', hm', ht'⟩ := h'
  refine ⟨new ++ new', by rw [he', he, List.append_assoc], List.forall_mem_append.2 ⟨hm, hm'⟩, ?_⟩
  rw [List.filterMap_append, ht, ht']

private theorem of_record (first last : List (Event φ)) {drawn : List (Event φ)}
    (hr : l'.intake.record = last ++ drawn ++ first ++ l.intake.record) (hd : ∀ e ∈ drawn, e.isDraw = true)
    (hfirst : ∀ e ∈ first, e.isMismatch = false ∧ e.left? = none) (hlast : ∀ e ∈ last, e.isMismatch = false) :
    Leaves l l' (last.reverse.filterMap Event.left?) := by
  refine ⟨first.reverse ++ drawn.reverse ++ last.reverse, ?_, fun e he => ?_, ?_⟩
  · unfold events Intake.events
    rw [hr]
    simp
  · simp only [List.mem_append, List.mem_reverse] at he
    rcases he with (he | he) | he
    · exact (hfirst e he).1
    · exact Event.isMismatch_of_isDraw (hd e he)
    · exact hlast e he
  · rw [List.filterMap_append, List.filterMap_append,
      List.filterMap_eq_nil_iff.2 fun e he => (hfirst e (List.mem_reverse.1 he)).2,
      List.filterMap_eq_nil_iff.2 fun e he => Event.left?_of_isDraw (hd e (List.mem_reverse.1 he))]
    rfl

variable [Judge φ]

private theorem of_advances {r : Except Halt Token} (h : Advances patience l r l') :
    Leaves l l' r.toOption.toList := by
  cases h with
  | moved hf =>
    obtain ⟨drawn, hd, hr⟩ := hf.record_eq
    refine of_record [] [.consumed l.current] ?_ hd (List.forall_mem_nil _) (by simp [Event.isMismatch])
    rw [List.append_nil]
    exact congrArg (_ :: ·) hr
  | halted hf =>
    obtain ⟨drawn, hd, hr⟩ := hf.record_eq
    refine of_record [] [] ?_ hd (List.forall_mem_nil _) (List.forall_mem_nil _)
    rw [List.append_nil]
    exact hr

private theorem of_drain (patience : Nat) (most : Bool) (n : Nat) (l : Lexer φ) :
    ∃ ts, Leaves l (l.drain patience most n).2 ts ∧ ∀ us, (l.drain patience most n).1 = .ok us → ts = us := by
  induction n generalizing l with
  | zero =>
    unfold drain
    split
    · exact ⟨[], refl, fun us h => Except.ok.inj h⟩
    · refine ⟨[], refl, fun us h => ?_⟩
      cases most with
      | true => exact Except.ok.inj h
      | false => cases h
  | succ n ih =>
    have ha := of_advances (l.advance_advances patience)
    unfold drain
    split
    · exact ⟨[], refl, fun us h => Except.ok.inj h⟩
    · rcases hs : l.advance patience with ⟨e | t, l'⟩
      · rw [hs] at ha
        exact ⟨[], ha, fun us h => by cases h⟩
      · rw [hs] at ha
        obtain ⟨ts, ht, hts⟩ := ih l'
        refine ⟨t :: ts, ha.trans ht, fun us h => ?_⟩
        dsimp only at h
        cases hr : (drain patience most n l').1 with
        | error e => rw [hr] at h; cases h
        | ok vs =>
          rw [hr] at h
          rw [hts vs hr]
          exact Except.ok.inj h

end Leaves

variable [Judge φ]

private theorem Leaves.of_call (patience : Nat) {l : Lexer φ} {c : Call φ}
    (hc : ∀ group value, c = .expect group value → c.passes l.current = true) :
    ∃ ts, Leaves l (l.call patience c).2 ts ∧ c.Leaves l.current (l.call patience c).1 ts := by
  by_cases hp : c.passes l.current = true
  · rw [call_of_passes hp]
    refine ⟨_, of_advances (l.advance_advances patience), ?_⟩
    rw [← Call.taken_of_passes hp]
    cases c with
    | advance => rfl
    | accept => rfl
    | expect => rfl
    | _ => cases hp
  · cases c with
    | advance => exact absurd rfl hp
    | peek => exact ⟨[], refl, rfl⟩
    | accept group value =>
      simp only [call]
      rw [accept_of_not_fits patience (Bool.not_eq_true _ ▸ hp)]
      exact ⟨[], refl, rfl⟩
    | expect group value => exact absurd (hc group value rfl) hp
    | filter p =>
      obtain ⟨last, drawn, hr, hd, hlast⟩ := (filter_refilters patience p l).record_eq
      refine ⟨_, of_record [.filterSet p] last ?_ hd (by simp [Event.isMismatch, Event.left?]) ?_, ?_⟩
      · rw [List.append_assoc]
        exact hr
      · rcases hlast with rfl | ⟨rfl, -⟩ <;> simp [Event.isMismatch]
      · rcases hlast with rfl | ⟨rfl, hok⟩
        · exact .inl rfl
        · refine .inr ⟨rfl, ?_⟩
          simp only [call]
          rw [hok]
          rfl
    | onerror h =>
      have hr : (l.onerror h).intake.record = [] ++ [] ++ [.handlerSet h] ++ l.intake.record := rfl
      refine ⟨_, of_record _ _ hr (List.forall_mem_nil _) ?_ (List.forall_mem_nil _), rfl⟩
      simp [Event.isMismatch, Event.left?]
    | drain most =>
      obtain ⟨ts, ht, hts⟩ := of_drain patience most.isSome (most.getD patience) l
      refine ⟨ts, ht, fun us h => hts us ?_⟩
      simp only [call] at h
      cases hr : (l.drain patience most.isSome (most.getD patience)).1 with
      | error e => rw [hr] at h; cases h
      | ok vs =>
        rw [hr] at h
        rw [Answer.tokens.inj (Except.ok.inj h)]
    | describe => exact ⟨[], refl, rfl⟩

/-- A handler that only looks at the report gives up nothing. -/
private theorem react_record (patience : Nat) (h : Handler φ) (m : Mismatch) (l : Lexer φ) :
    ∃ older, (react patience h m l).2.intake.record = older ++ l.intake.record ∧
      (h.isQuiet = true → older.filterMap Event.left? = []) := by
  cases hq : h.isQuiet with
  | true =>
    cases h with
    | default => exact ⟨[.delivered .default m], rfl, fun _ => rfl⟩
    | answer label reply => exact ⟨[.delivered (.answer label reply) m], rfl, fun _ => rfl⟩
    | _ => cases hq
  | false =>
    have hm : Meets (fun l' => l.intake.record <:+ l'.intake.record) (fun _ l' => l.intake.record <:+ l'.intake.record)
        (react patience h m l).1 (react patience h m l).2 :=
      (record_carries patience l.intake.record).of_react (.inr fun _ _ h => h) (List.suffix_refl _)
    obtain ⟨older, ho⟩ : l.intake.record <:+ (react patience h m l).2.intake.record := by
      revert hm
      cases (react patience h m l).1 <;> exact id
    exact ⟨older, ho.symm, fun h => by cases h⟩

/-- What a call gives up is what it tells up to a mismatch; behind that comes what the handler does, and one that only
looks at the report gives up nothing. -/
theorem call_leaves (patience : Nat) (l : Lexer φ) (c : Call φ) :
    ∃ direct later, (l.call patience c).2.events = l.events ++ direct ++ later ∧
      (∀ e ∈ direct, e.isMismatch = false) ∧ (∀ e ∈ later.head?, e.isMismatch = true) ∧
      c.Leaves l.current (l.call patience c).1 (direct.filterMap Event.left?) ∧
      (l.handler.isQuiet = true → later.filterMap Event.left? = []) := by
  by_cases hc : ∀ group value, c = .expect group value → c.passes l.current = true
  · obtain ⟨ts, ⟨new, he, hm, ht⟩, hl⟩ := Leaves.of_call patience hc
    refine ⟨new, [], by rw [he, List.append_nil], hm, (fun e he => by cases he), ?_, fun _ => rfl⟩
    rwa [ht]
  · simp only [Classical.not_forall] at hc
    obtain ⟨group, value, rfl, hf⟩ := hc
    have hf : l.current.fits group value = false := Bool.not_eq_true _ ▸ hf
    obtain ⟨older, ho, hq⟩ := react_record patience l.handler ⟨l.current, group, value⟩
      (l.note (.expected ⟨l.current, group, value⟩))
    simp only [call]
    rw [expect_of_not_fits patience hf]
    refine ⟨[], .expected ⟨l.current, group, value⟩ :: older.reverse, ?_, List.forall_mem_nil _, ?_, ?_, fun h => ?_⟩
    · unfold events Intake.events
      rw [ho]
      simp [note]
    · intro e he
      obtain rfl := Option.some.inj he
      rfl
    · dsimp only
      generalize (react patience l.handler _ _).1 = r
      cases r <;> rfl
    · rw [List.filterMap_cons_none rfl, List.filterMap_reverse, hq h]
      rfl

end Lexer

end Lookahead
