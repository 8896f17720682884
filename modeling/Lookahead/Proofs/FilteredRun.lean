import Lookahead.Proofs.Sifting
import Lookahead.Proofs.EndOfInput

/-!
# Runs under a filter

What calls after `filter p` return, read off the pending tokens alone (`Lexer.filter_then_consume`): what `p` keeps of
them, from the left, and behind that the token at the end. It does not matter how much of an endless feed is looked at,
as long as it is enough.
-/

namespace Lookahead

/-- The handler looks at the report only. -/
def Handler.isQuiet {φ : Type} : Handler φ → Bool
  | default => true
  | answer _ _ => true
  | _ => false

namespace Call

variable {φ : Type}

/-- The call does at most one advance, and installs no filter. -/
def isPlain : Call φ → Bool
  | filter _ => false
  | drain _ => false
  | onerror h => h.isQuiet
  | _ => true

/-- The token that a call took and returned. -/
def taken : Call φ → Except Halt Answer → Option Token
  | advance, .ok (.token t) => t
  | accept _ _, .ok (.token t) => t
  | expect _ _, .ok (.token t) => t
  | _, _ => none

theorem taken_of_passes {t : Token} {c : Call φ} (h : c.passes t = true) (r : Except Halt Token) :
    c.taken (r.map fun t => .token (some t)) = r.toOption := by
  cases c with
  | advance => cases r <;> rfl
  | accept => cases r <;> rfl
  | expect => cases r <;> rfl
  | _ => cases h

end Call

/-- A list that is one longer than `ts`, when it is padded: its first elements are `ts`, and `c` is the next. -/
private theorem rightpad_of_append {α : Type} {ks rest ts : List α} {c e : α} {n : Nat}
    (h : ks ++ List.replicate n e = ts ++ [c]) (hn : n = 0 ∨ rest = []) :
    ts = ((ks ++ rest).take ts.length).rightpad ts.length e ∧ c = (ks ++ rest).getD ts.length e := by
  cases n with
  | zero =>
    have hk : ks = ts ++ [c] := by simpa using h
    rw [hk, List.append_assoc, List.take_left, List.rightpad, Nat.sub_self, List.getD_eq_getElem?_getD,
      List.getElem?_append_right (Nat.le_refl _)]
    simp
  | succ n =>
    have hr : rest = [] := hn.resolve_left (Nat.succ_ne_zero n)
    rw [List.replicate_succ', ← List.append_assoc] at h
    obtain ⟨hts, hc⟩ := List.append_inj' h rfl
    rw [hr, List.append_nil, ← hts, List.length_append, List.length_replicate,
      List.take_of_length_le (Nat.le_add_right _ _), List.rightpad, Nat.add_sub_cancel_left]
    exact ⟨rfl, by simpa using (List.cons.inj hc).1.symm⟩

namespace Lexer

variable {φ : Type} [Judge φ]

open Judge (sieve sift questioned Calm)
open Intake (Passes Fetches)

namespace Sifts

variable {i : Intake φ} {head : List Token} {new : List (Event φ)} {l : Lexer φ}

private theorem kept_mono (i : Intake φ) (head : List Token) {m n : Nat} (h : m ≤ n) :
    head ++ sieve i.filter (i.ahead m) <+: head ++ sieve i.filter (i.ahead n) := by
  obtain ⟨k, rfl⟩ := Nat.exists_eq_add_of_le h
  exact (List.prefix_append_right_inj _).2 (Judge.sieve_prefix _ (i.ahead_prefix m k))

/-- What was kept, padded with the token at the end, is what was handed out and then the current token. -/
private theorem padded (h : Sifts i head new l) :
    ∃ n, head ++ sieve i.filter (i.ahead (new.countP Event.isPull)) ++ List.replicate n i.eof =
        (new.filterMap Event.consumed?).reverse ++ [l.current] ∧ (n = 0 ∨ l.intake.exhausted = true) := by
  cases hx : l.intake.exhausted with
  | false => exact ⟨0, by simpa using (h.of_open hx).1, .inl rfl⟩
  | true =>
    obtain ⟨hc, n, hn⟩ := h.of_exhausted hx
    exact ⟨n, by rw [hn, hc], .inr rfl⟩

/-- More tokens are kept of more, but after the end there are no more. -/
private theorem kept_of_le (h : Sifts i head new l) {m : Nat} (hm : new.countP Event.isPull ≤ m) :
    ∃ rest, head ++ sieve i.filter (i.ahead m) =
        head ++ sieve i.filter (i.ahead (new.countP Event.isPull)) ++ rest ∧
      (l.intake.exhausted = true → rest = []) := by
  obtain ⟨k, rfl⟩ := Nat.exists_eq_add_of_le hm
  refine ⟨sieve l.intake.filter (l.intake.ahead k), ?_, fun hx => ?_⟩
  · rw [h.passes.ahead_eq, Judge.sieve_append, ← h.passes.filter_eq, List.append_assoc]
  · rw [Intake.ahead_of_exhausted hx]
    rfl

/-- What was handed out, and the current token, as elements of what the filter keeps of enough tokens. -/
theorem reads (h : Sifts i head new l) {m : Nat} {returned : List Token}
    (hreturned : (new.filterMap Event.consumed?).reverse = returned)
    (hm : new.countP Event.isPull ≤ m ∨ returned.length < (head ++ sieve i.filter (i.ahead m)).length ∨
      (i.ahead m).length < m) :
    let kept := head ++ sieve i.filter (i.ahead m)
    returned = (kept.take returned.length).rightpad returned.length i.eof ∧
      l.current = kept.getD returned.length i.eof := by
  intro kept
  obtain ⟨n, hpad, hn⟩ := h.padded
  rw [hreturned] at hpad
  -- Enough tokens are those that were passed and perhaps more, or as many of them as matter.
  have hkept : ∃ rest, kept = head ++ sieve i.filter (i.ahead (new.countP Event.isPull)) ++ rest ∧
      (l.intake.exhausted = true → rest = []) := by
    by_cases hle : new.countP Event.isPull ≤ m
    · exact h.kept_of_le hle
    · have hlt : m ≤ new.countP Event.isPull := by omega
      refine ⟨[], ?_, fun _ => rfl⟩
      rw [List.append_nil]
      rcases hm with hm | hm | hm
      · exact absurd hm hle
      · have hlen := congrArg List.length hpad
        simp only [List.length_append, List.length_replicate, List.length_singleton] at hlen hm
        refine (kept_mono i head hlt).eq_of_length_le ?_
        rw [List.length_append, List.length_append]
        omega
      · obtain ⟨k, hk⟩ := Nat.exists_eq_add_of_le hlt
        rw [hk, Intake.ahead_of_short hm]
  obtain ⟨rest, hrest, hend⟩ := hkept
  rw [hrest]
  exact rightpad_of_append hpad (hn.imp_right hend)

/-- While there is more, the last token that was passed is the current one. -/
theorem pending_eq (h : Sifts i head new l) {t : Token} (hhead : head = [] ∨ head = [t]) (m : Nat) :
    l.pending m = if l.intake.exhausted then [i.eof]
      else (t :: i.ahead (new.countP Event.isPull + m)).drop (new.countP Event.isPull) := by
  unfold pending
  cases hx : l.intake.exhausted with
  | true => rw [(h.of_exhausted hx).1, Intake.ahead_of_exhausted hx]; rfl
  | false =>
    have hlast : (t :: i.ahead (new.countP Event.isPull)).getLast? = some l.current := by
      have hl := (h.of_open hx).2
      rcases hhead with rfl | rfl
      · rw [List.getLast?_cons, show (i.ahead (new.countP Event.isPull)).getLast? = some l.current from hl]
        rfl
      · exact hl
    obtain ⟨front, hfront⟩ := List.getLast?_eq_some_iff.1 hlast
    have hlen : front.length = new.countP Event.isPull := by
      have hl := congrArg List.length hfront
      rw [List.length_cons, h.passes.length_eq hx, List.length_append, List.length_singleton] at hl
      omega
    rw [h.passes.ahead_eq, ← List.cons_append, hfront, ← hlen, List.append_assoc]
    simp

end Sifts

/-! ### Plain calls -/

private theorem Advances.taken {patience : Nat} {l l' : Lexer φ} {r : Except Halt Token}
    (h : Advances patience l r l') :
    ∃ new, l'.intake.record = new ++ l.intake.record ∧ new.filterMap Event.installed? = [] ∧
      new.filterMap Event.consumed? = r.toOption.toList ∧ l'.handler = l.handler := by
  cases h with
  | moved hf =>
    obtain ⟨drawn, hd, hr⟩ := hf.record_eq
    refine ⟨.consumed l.current :: drawn, congrArg (_ :: ·) hr, ?_, ?_, rfl⟩
    · exact List.filterMap_eq_nil_iff.2 (List.forall_mem_cons.2 ⟨rfl, fun e he => Event.installed?_of_isDraw (hd e he)⟩)
    · have hc : drawn.filterMap Event.consumed? = [] :=
        Event.filterMap_consumed?_of_isDraw hd
      rw [List.filterMap_cons, hc]
      rfl
  | halted hf =>
    obtain ⟨drawn, hd, hr⟩ := hf.record_eq
    refine ⟨drawn, hr, List.filterMap_eq_nil_iff.2 fun e he => Event.installed?_of_isDraw (hd e he), ?_, rfl⟩
    exact Event.filterMap_consumed?_of_isDraw hd

/-- What a plain call takes it returns, and only its advance can lose patience. -/
theorem call_plain (patience : Nat) {l : Lexer φ} (hq : l.handler.isQuiet = true) {c : Call φ}
    (hc : c.isPlain = true) :
    ∃ new, (l.call patience c).2.intake.record = new ++ l.intake.record ∧ new.filterMap Event.installed? = [] ∧
      new.filterMap Event.consumed? = (c.taken (l.call patience c).1).toList ∧
      (l.call patience c).2.handler.isQuiet = true ∧
      ((l.call patience c).1 = .error .impatient →
        ∃ k, Fetches (some l.view) patience l.intake (.error .impatient) k) := by
  by_cases hp : c.passes l.current = true
  · have hadv := l.advance_advances patience
    obtain ⟨new, hr, hi, ht, hh⟩ := hadv.taken
    rw [call_of_passes hp]
    refine ⟨new, hr, hi, by rw [ht, Call.taken_of_passes hp], by rw [← hq, ← hh], fun he => ?_⟩
    rw [Halt.map_eq_error_iff.1 he] at hadv
    exact hadv.fetches_of_error
  · rw [Bool.not_eq_true] at hp
    cases c with
    | advance => cases hp
    | peek => exact ⟨[], rfl, rfl, rfl, hq, fun he => absurd he Halt.mapError_ne_impatient⟩
    | accept group value =>
      simp only [call]
      rw [accept_of_not_fits patience hp]
      exact ⟨[], rfl, rfl, rfl, hq, fun he => by cases he⟩
    | expect group value =>
      simp only [call]
      rw [expect_of_not_fits patience hp]
      rcases l with ⟨i, previous, current, handler⟩
      cases handler with
      | default => exact ⟨[.delivered _ _, .expected _], rfl, rfl, rfl, rfl, fun he => by cases he⟩
      | answer label reply =>
        refine ⟨[.delivered _ _, .expected _], rfl, rfl, ?_, rfl, fun he => ?_⟩
        · simp only [react]
          cases reply ⟨current, group, value⟩ <;> rfl
        · exact absurd (Halt.map_eq_error_iff.1 (Halt.map_eq_error_iff.1 he)) Halt.mapError_ne_impatient
      | _ => cases hq
    | filter => cases hc
    | onerror h => exact ⟨[.handlerSet h], rfl, rfl, rfl, hc, fun he => by cases he⟩
    | drain => cases hc
    | describe => exact ⟨[], rfl, rfl, rfl, hq, fun he => by cases he⟩

/-- The tokens that calls took and returned. -/
def taken (calls : List (Call φ)) (answers : List (Except Halt Answer)) : List Token :=
  (calls.zip answers).filterMap fun (c, a) => c.taken a

private theorem run_plain (patience : Nat) {l : Lexer φ} (hq : l.handler.isQuiet = true) {calls : List (Call φ)}
    (hc : ∀ c ∈ calls, c.isPlain = true) :
    ∃ new, (l.run patience calls).2.intake.record = new ++ l.intake.record ∧ new.filterMap Event.installed? = [] ∧
      (new.filterMap Event.consumed?).reverse = taken calls (l.run patience calls).1 := by
  induction calls generalizing l with
  | nil => exact ⟨[], rfl, rfl, rfl⟩
  | cons c cs ih =>
    rw [List.forall_mem_cons] at hc
    obtain ⟨new, hr, hi, ht, hq', -⟩ := call_plain patience hq hc.1
    obtain ⟨new', hr', hi', ht'⟩ := ih hq' hc.2
    refine ⟨new' ++ new, ?_, ?_, ?_⟩
    · rw [List.append_assoc, ← hr, ← hr']
      rfl
    · rw [List.filterMap_append, hi, hi', List.append_nil]
    · rw [List.filterMap_append, List.reverse_append, ht, ht']
      change _ = taken (c :: cs) ((l.call patience c).1 :: ((l.call patience c).2.run patience cs).1)
      unfold taken
      cases hct : c.taken (l.call patience c).1 <;> simp [hct]

/-- While the end is not found, the tokens that were passed are not enough, if the filter keeps no more than `c`. -/
private theorem not_enough {i k : Intake φ} {head : List Token} {all : List (Event φ)} (hp : Passes i all k)
    (hx : k.exhausted = false) {m : Nat} (hm : m ≤ all.countP Event.isPull) {c : Nat}
    (hc : (head ++ sieve i.filter (i.ahead (all.countP Event.isPull))).length ≤ c) :
    ¬ (c < (head ++ sieve i.filter (i.ahead m)).length ∨ (i.ahead m).length < m) := by
  rintro (hlen | hshort)
  · have hpre := (Sifts.kept_mono i head hm).length_le
    omega
  · obtain ⟨d, hd⟩ := Nat.exists_eq_add_of_le hm
    have hlen := hp.length_eq hx
    rw [hd, Intake.ahead_of_short hshort] at hlen
    omega

/-- With patience for the tokens that plain calls ask for, none of them loses patience. -/
private theorem Sifts.patient {i : Intake φ} {head : List Token} {new : List (Event φ)} {l : Lexer φ}
    (h : Sifts i head new l) (hnew : new.filterMap Event.installed? = []) (calm : Calm i.filter)
    (smooth : i.feed.Smooth i.source) (hq : l.handler.isQuiet = true) {calls : List (Call φ)}
    (hc : ∀ c ∈ calls, c.isPlain = true) {patience m : Nat} (hm : m ≤ patience)
    (henough : (new.filterMap Event.consumed?).length + calls.length < (head ++ sieve i.filter (i.ahead m)).length ∨
      (i.ahead m).length < m) :
    ∀ a ∈ (l.run patience calls).1, a ≠ .error .impatient := by
  induction calls generalizing l new with
  | nil => exact fun a ha => absurd ha List.not_mem_nil
  | cons c cs ih =>
    rw [List.forall_mem_cons] at hc
    obtain ⟨later, hr, hi, ht, hq', hlost⟩ := call_plain patience hq hc.1
    have hfirst : (l.call patience c).1 ≠ .error .impatient := by
      intro he
      obtain ⟨k, hf⟩ := hlost he
      obtain ⟨-, all, hp, hx, hn, hs⟩ := h.halted calm smooth hf
      refine not_enough hp hx (Nat.le_trans hm hn) ?_ henough
      rw [hs, List.length_append, List.length_reverse, List.length_singleton, List.length_cons]
      omega
    obtain ⟨new', hr', hs⟩ := (Sifts.stable calm smooth).of_call (c := c)
      (fun e he => fun hi => hfirst (he.trans (congrArg _ hi))) ⟨new, h.passes.record_eq, fun _ => h⟩
    have heq : new' = later ++ new := by
      rw [hr, h.passes.record_eq, ← List.append_assoc] at hr'
      exact (List.append_cancel_right hr').symm
    have hnew' : new'.filterMap Event.installed? = [] := by rw [heq, List.filterMap_append, hi, hnew]; rfl
    have hrest := ih (hs hnew') hnew' hq' hc.2 (henough.imp_left fun hlen => ?_)
    · exact List.forall_mem_cons.2 ⟨hfirst, hrest⟩
    · have hone : (c.taken (l.call patience c).1).toList.length ≤ 1 := by
        cases c.taken (l.call patience c).1 <;> simp
      rw [heq, List.filterMap_append, List.length_append, ht]
      rw [List.length_cons] at hlen
      omega

/-! ### A filter and what is read after it -/

/-- The events since a filter was installed, in terms of those since it was asked about the current token. -/
private theorem Opens.events {p : Option φ} {l l' : Lexer φ} {head : List Token} {i : Intake φ} (h : Opens p l head i)
    {new : List (Event φ)} (hr : l'.intake.record = new ++ i.record) :
    (l.since l').countP Event.isPull = new.countP Event.isPull ∧
      (l.since l').filterMap Event.consumed? = (new.filterMap Event.consumed?).reverse ∧
      (l.since l').filterMap Event.installed? = p :: (new.filterMap Event.installed?).reverse ∧
      (l.since l').filterMap Event.question? = (if p.isSome then questioned [l.current] else []) ++
        (new.filterMap Event.question?).reverse := by
  obtain ⟨asked, hi, ha, hq⟩ := h.record_eq
  have hrec : l'.intake.record = new ++ asked ++ [.filterSet p] ++ l.intake.record := by
    rw [hr, hi]
    simp
  have hs : l.since l' = .filterSet p :: (asked.reverse ++ new.reverse) := by
    rw [since_eq hrec]
    simp
  have hp : asked.reverse.countP Event.isPull = 0 := by
    rw [List.countP_reverse, List.countP_eq_zero]
    exact fun e he => by simp [(ha e he).2]
  have hc : asked.reverse.filterMap Event.consumed? = [] :=
    List.filterMap_eq_nil_iff.2 fun e he => Event.consumed?_of_isDraw (ha e (List.mem_reverse.1 he)).1
  have hn : asked.reverse.filterMap Event.installed? = [] :=
    List.filterMap_eq_nil_iff.2 fun e he => Event.installed?_of_isDraw (ha e (List.mem_reverse.1 he)).1
  rw [hs]
  refine ⟨?_, ?_, ?_, ?_⟩
  · rw [List.countP_cons_of_neg (by simp [Event.isPull]), List.countP_append, hp, List.countP_reverse, Nat.zero_add]
  · rw [List.filterMap_cons_none rfl, List.filterMap_append, hc, List.filterMap_reverse]
    rfl
  · rw [List.filterMap_cons, List.filterMap_append, hn, List.filterMap_reverse]
    rfl
  · rw [List.filterMap_cons_none rfl, List.filterMap_append, List.filterMap_reverse, List.filterMap_reverse, hq]
    congr 1
    rw [Judge.questioned_singleton]
    cases p.isSome <;> cases l.current.isEof <;> rfl

/-- After `filter p` the calls return what `p` keeps of the pending tokens, and then the token at the end; `p` is asked
once about each token that is passed, from the left; what is pending then begins with the current token. A call that
advances does not fail, and it ends if `p` keeps enough tokens, or if there is an end. -/
theorem filter_then_consume {patience : Nat} {input : String} {feed : Feed} {f₀ : Option φ} {handler : Handler φ}
    {l₀ : Lexer φ} (created : (create patience { source := ⟨input⟩, feed, common := f₀ } handler).1 = .ok l₀)
    (smooth : feed.Smooth ⟨input⟩) (before : List (Call φ)) {p : Option φ} (calm : Calm p) (calls : List (Call φ)) :
    let l := (l₀.run patience before).2
    let answers := (l.run patience (.filter p :: calls)).1
    let l' := (l.run patience (.filter p :: calls)).2
    let events := l.since l'
    let pulls := events.countP Event.isPull
    let returned := events.filterMap Event.consumed?
    let n := returned.length
    let kept := fun m => sift p (l.pending m)
    ((∀ a ∈ answers, a ≠ .error .impatient) → events.filterMap Event.installed? = [p] →
      (∀ m, pulls ≤ m ∨ n < (kept m).length ∨ (l.pending m).length ≤ m →
        returned = ((kept m).take n).rightpad n (.eof ⟨input⟩) ∧ l'.current = (kept m).getD n (.eof ⟨input⟩)) ∧
      events.filterMap Event.question? = (if p.isSome then questioned (l.pending pulls) else []) ∧
      (∀ m, l'.pending m =
        if l'.intake.exhausted then [.eof ⟨input⟩] else (l.pending (pulls + m)).drop pulls) ∧
      ∀ e, (l'.advance patience).1 = .error e → e = .impatient) ∧
    (l.handler.isQuiet = true → (∀ c ∈ calls, c.isPlain = true) →
      ((∀ a ∈ answers, a ≠ .error .impatient) →
        events.filterMap Event.installed? = [p] ∧ returned = taken calls answers.tail) ∧
      ∀ m ≤ patience, calls.length < (kept m).length ∨ (l.pending m).length ≤ m →
        ∀ a ∈ answers, a ≠ .error .impatient) := by
  intro l answers l' events pulls returned n kept
  have hg : Grounded ⟨input⟩ feed.outcome l :=
    Grounded.stable.of_run (fun _ _ _ _ => trivial) (Grounded.of_create rfl rfl created)
  have hsource : l.intake.source = ⟨input⟩ := hg.source_eq
  have hsmooth : l.intake.feed.Smooth l.intake.source := by
    rw [hsource]
    exact smooth.congr hg.outcome_eq
  have hend : l.intake.exhausted = true → l.current = l.intake.eof := by
    intro hx
    rw [hg.current_of_exhausted hx, Intake.eof, hsource]
  have hre := l.filter_refilters patience p
  rcases hf : l.filter patience p with ⟨r, l₁⟩
  rw [hf] at hre
  obtain ⟨head, i, ho, hres⟩ := hre.opens calm hsmooth hend
  have heof : i.eof = .eof ⟨input⟩ := by rw [Intake.eof, ho.source_eq, hsource]
  have hkept : ∀ m, kept m = head ++ sieve i.filter (i.ahead m) := ho.sift_eq
  have hshort : ∀ m, (l.pending m).length ≤ m → (i.ahead m).length < m := by
    intro m hm
    rw [ho.ahead_eq]
    exact hm
  have hrun : l.run patience (.filter p :: calls) =
      (r.map (fun _ => .done) :: (l₁.run patience calls).1, (l₁.run patience calls).2) := by
    simp only [run, call, hf]
  have hanswers : answers = r.map (fun _ => .done) :: (l₁.run patience calls).1 := congrArg Prod.fst hrun
  have hl' : l' = (l₁.run patience calls).2 := by
    change (l.run patience (.filter p :: calls)).2 = _
    rw [hrun]
  cases r with
  | error e =>
    -- The filter keeps none of the tokens that patience allows, so these were not enough.
    obtain ⟨rfl, all, hp, hx, hn, hs⟩ := hres
    have himpatient : ¬ ∀ a ∈ answers, a ≠ .error .impatient := by
      rw [hanswers, List.forall_mem_cons]
      exact fun h => h.1 rfl
    refine ⟨fun h => absurd h himpatient, fun _ _ => ⟨fun h => absurd h himpatient, fun m hm henough => ?_⟩⟩
    rw [hkept] at henough
    exact (not_enough hp hx (Nat.le_trans hm hn) (by rw [hs]; exact Nat.zero_le _) (henough.imp_right (hshort m))).elim
  | ok =>
    obtain ⟨new, hi, hc, hs⟩ := hres
    refine ⟨fun hpatient hinstalled => ?_, fun hq hplain => ⟨fun _ => ?_, fun m hm henough => ?_⟩⟩
    · rw [hanswers, List.forall_mem_cons] at hpatient
      obtain ⟨new', hr, hs'⟩ := (Sifts.stable ho.calm ho.smooth).of_run
        (fun a ha e he hi => hpatient.2 a ha (by rw [he, hi])) ⟨new, hs.passes.record_eq, fun _ => hs⟩
      rw [← hl'] at hr hs'
      obtain ⟨hcount, hconsumed, hinst, hquest⟩ := ho.events hr
      have hnew : new'.filterMap Event.installed? = [] :=
        List.reverse_eq_nil_iff.1 (List.cons.inj (hinst.symm.trans hinstalled)).2
      have hpulls : pulls = new'.countP Event.isPull := hcount
      have hs' := hs' hnew
      refine ⟨fun m hm => ?_, hquest.trans ?_, fun m => ?_, fun e he => ?_⟩
      · have hm' := hm.imp_right (Or.imp_right (hshort m))
        rw [hkept, hpulls] at hm'
        have hread := hs'.reads hconsumed.symm hm'
        rw [← hkept, heof] at hread
        exact hread
      · rw [hs'.passes.questions_eq, ho.isSome_eq, ho.ahead_eq, ← hpulls, pending,
          Judge.questioned_cons l.current (l.intake.ahead pulls)]
        split <;> rfl
      · rw [hs'.pending_eq ho.head_eq m, heof, ho.ahead_eq, ← hpulls]
        rfl
      · have hadv := l'.advance_advances patience
        rw [he] at hadv
        obtain ⟨k, hk⟩ := hadv.fetches_of_error
        exact (hs'.halted ho.calm ho.smooth hk).1
    · have hq₁ : l₁.handler.isQuiet = true := by rw [hre.handler_eq, hq]
      obtain ⟨later, hr, hi', ht⟩ := run_plain patience hq₁ hplain
      have hrec : l'.intake.record = later ++ new ++ i.record := by
        rw [hl', hr, hs.passes.record_eq, List.append_assoc]
      obtain ⟨-, hconsumed, hinst, -⟩ := ho.events hrec
      refine ⟨hinst.trans ?_, hconsumed.trans ?_⟩
      · rw [List.filterMap_append, hi', hi]
        rfl
      · rw [List.filterMap_append, hc, List.append_nil, ht, hanswers]
        rfl
    · have hq₁ : l₁.handler.isQuiet = true := by rw [hre.handler_eq, hq]
      rw [hkept] at henough
      rw [hanswers, List.forall_mem_cons]
      refine ⟨(fun he => by cases he), hs.patient hi ho.calm ho.smooth hq₁ hplain hm ?_⟩
      rw [hc, List.length_nil, Nat.zero_add]
      exact henough.imp_right (hshort m)

/-- A word, a blank and another word, of which every second token is kept, counting from the first word. -/
theorem filter_then_consume_every_second :
    let feed := Feed.ofList [.item (.token ⟨"word", "ab", 0, none⟩), .item (.token ⟨"blank", " ", 2, none⟩),
      .item (.token ⟨"word", "cd", 3, none⟩)]
    ∃ l₀ : Lexer Filter, (create 3 { source := ⟨"ab cd"⟩, feed } .collect).1 = .ok l₀ ∧
      let calls : List (Call Filter) := [.advance, .advance]
      taken calls (l₀.run 3 (.filter (some (.ofKind "every" (.every 2 0))) :: calls)).1.tail =
        [⟨"blank", " ", 2, some ⟨"ab cd"⟩⟩, .eof ⟨"ab cd"⟩] := by
  intro feed
  have smooth : feed.Smooth ⟨"ab cd"⟩ := by
    intro k
    rw [Feed.outcome_ofList]
    rcases k with _ | _ | _ | k
    · exact ⟨_, rfl⟩
    · exact ⟨_, rfl⟩
    · exact ⟨_, rfl⟩
    · exact ⟨none, rfl⟩
  refine ⟨_, rfl, ?_⟩
  obtain ⟨hread, hplain⟩ := @filter_then_consume Filter _ 3 "ab cd" feed none .collect _ rfl smooth []
    (some (.ofKind "every" (.every 2 0))) (Filter.calm rfl) [.advance, .advance]
  obtain ⟨htaken, hpatient⟩ := hplain rfl (by decide)
  have hp := hpatient 3 (by decide) (.inr (by decide))
  obtain ⟨hi, ht⟩ := htaken hp
  obtain ⟨hk, -⟩ := hread hp hi
  exact ht.symm.trans ((hk 3 (.inr (.inr (by decide)))).1.trans (by decide +kernel))

end Lexer

end Lookahead
