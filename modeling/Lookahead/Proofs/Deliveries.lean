import Lookahead.Proofs.FilteredRun

/-!
# Deliveries of mismatches

A handler is told of every expectation that was not met, once, and of nothing else, if handlers look at the report only.
What calls owe to handlers is read off the calls and the tokens that were current (`Lexer.owed`);
`Lexer.mismatches_delivered_once` says that it is what the events of the lexer tell. Apart from that, calls are silent
(`Lexer.Silent`).
-/

namespace Lookahead

/-- The handler that a call installs. -/
def Call.handler? {φ : Type} : Call φ → Option (Handler φ)
  | onerror h => some h
  | _ => none

/-- The handler that calls installed last, or `h` if they installed none. -/
def lastHandler {φ : Type} (h : Handler φ) (calls : List (Call φ)) : Handler φ :=
  (calls.filterMap Call.handler?).getLast?.getD h

/-- What is told of a mismatch: first that it is there, and then that the handler was given the report. -/
def remarks {φ : Type} (h : Handler φ) (m : Mismatch) : List (Event φ) := [.expected m, .delivered h m]

/-! ### Messages about mismatches -/

/-- The mismatch that an event is. -/
def Event.mismatch? {φ : Type} : Event φ → Option Mismatch
  | expected m => some m
  | _ => none

/-- The message tells of an expectation. -/
def isExpectation (m : String) : Bool := "Expected ".toList.isPrefixOf m.toList

private theorem isPrefixOf_append {α : Type} [BEq α] {p a : List α} (h : p.length ≤ a.length) (b : List α) :
    p.isPrefixOf (a ++ b) = p.isPrefixOf a := by
  induction p generalizing a with
  | nil => simp
  | cons x p ih =>
    cases a with
    | nil => simp at h
    | cons y a =>
      rw [List.cons_append, List.isPrefixOf, List.isPrefixOf, ih (by simpa using h)]

/-- Whether a message tells of an expectation is seen from its beginning. -/
private theorem isExpectation_append {a : String} (h : "Expected ".toList.length ≤ a.toList.length) (s : String) :
    isExpectation (a ++ s) = isExpectation a := by
  unfold isExpectation
  rw [String.toList_append, isPrefixOf_append h]

/-- The messages that tell of an expectation belong to the mismatches. -/
theorem Event.message?_filter_isExpectation {φ : Type} [Judge φ] (e : Event φ) :
    e.message?.filter isExpectation = e.mismatch?.map expectation := by
  cases e with
  | created size =>
    apply Option.filter_some_neg
    rw [String.append_assoc, isExpectation_append (by decide)]
    decide
  | judged => rfl
  | pulled => rfl
  | reachedEnd size =>
    apply Option.filter_some_neg
    rw [isExpectation_append (by decide)]
    decide
  | consumed => rfl
  | discarded => rfl
  | expected m =>
    apply Option.filter_some_pos
    unfold expectation
    simp only [String.append_assoc]
    rw [isExpectation_append (by decide)]
    decide
  | delivered => rfl
  | filterSet f =>
    apply Option.filter_some_neg
    rw [isExpectation_append (by decide)]
    decide
  | handlerSet h =>
    apply Option.filter_some_neg
    rw [isExpectation_append (by decide)]
    decide

theorem Event.isRemark_of_isDraw {φ : Type} {e : Event φ} (h : e.isDraw = true) : e.isRemark = false := by
  revert h
  cases e <;> simp [isDraw, isRemark]

theorem mismatches_flatMap_remarks {φ : Type} (xs : List (Handler φ × Mismatch)) :
    (xs.flatMap fun x => remarks x.1 x.2).filterMap Event.mismatch? = xs.map (·.2) := by
  induction xs with
  | nil => rfl
  | cons x xs ih =>
    rw [List.flatMap_cons, List.filterMap_append, ih]
    rfl

theorem filterMap_mismatch?_eq {φ : Type} (es : List (Event φ)) :
    es.filterMap Event.mismatch? = (es.filter Event.isRemark).filterMap Event.mismatch? := by
  rw [List.filterMap_filter]
  congr 1
  funext e
  cases e <;> rfl

theorem filter_isRemark_append {φ : Type} {new : List (Event φ)} (h : ∀ e ∈ new, e.isRemark = false)
    (es : List (Event φ)) : (es ++ new).filter Event.isRemark = es.filter Event.isRemark := by
  have hnil : new.filter Event.isRemark = [] := List.filter_eq_nil_iff.2 (by simpa using h)
  rw [List.filter_append, hnil, List.append_nil]

namespace Lexer

variable {φ : Type}

/-- Nothing was remarked and the handler is the same. -/
structure Silent (l l' : Lexer φ) : Prop where
  handler_eq : l'.handler = l.handler
  events_eq : ∃ new, l'.events = l.events ++ new ∧ ∀ e ∈ new, e.isRemark = false

namespace Silent

variable {l l' l'' : Lexer φ}

theorem refl (l : Lexer φ) : Silent l l := ⟨rfl, [], by simp, by simp⟩

theorem trans (h : Silent l l') (h' : Silent l' l'') : Silent l l'' := by
  obtain ⟨new, hn, hnew⟩ := h.events_eq
  obtain ⟨new', hn', hnew'⟩ := h'.events_eq
  refine ⟨h'.handler_eq.trans h.handler_eq, new ++ new', by rw [hn', hn, List.append_assoc], ?_⟩
  exact List.forall_mem_append.2 ⟨hnew, hnew'⟩

theorem of_record {new : List (Event φ)} (hh : l'.handler = l.handler)
    (hr : l'.intake.record = new ++ l.intake.record) (hnew : ∀ e ∈ new, e.isRemark = false) : Silent l l' := by
  refine ⟨hh, new.reverse, ?_, fun e he => hnew e (List.mem_reverse.1 he)⟩
  simp [events, Intake.events, hr]

variable [Judge φ] {patience : Nat}

theorem of_advances {r : Except Halt Token} (h : Advances patience l r l') : Silent l l' := by
  obtain ⟨drawn, hr, hd⟩ := h.record_eq
  rw [← List.append_assoc] at hr
  refine of_record h.handler_eq hr fun e he => ?_
  rcases List.mem_append.1 he with he | he
  · obtain ⟨t, -, rfl⟩ := List.mem_map.1 he
    rfl
  · exact Event.isRemark_of_isDraw (hd e he)

theorem of_refilters {f : Option φ} {r : Except Halt Unit} (h : Refilters patience f l r l') : Silent l l' := by
  obtain ⟨last, drawn, hr, hd, hlast⟩ := h.record_eq
  have hrefiltered : l'.intake.record = (last ++ drawn ++ [.filterSet f]) ++ l.intake.record := by simp [hr]
  refine of_record h.handler_eq hrefiltered fun e he => ?_
  simp only [List.mem_append, List.mem_singleton] at he
  rcases he with (he | he) | rfl
  · rcases hlast with rfl | ⟨rfl, -⟩
    · cases he
    · rw [List.mem_singleton.1 he]
      rfl
  · exact Event.isRemark_of_isDraw (hd e he)
  · rfl

theorem steady (l : Lexer φ) (patience : Nat) : Steady patience (Silent l) fun _ => Silent l where
  stop _ h := h
  advance ha h := meets_self.2 (h.trans (of_advances ha))

end Silent

variable [Judge φ] {patience : Nat}

/-! ### One call -/

theorem call_expect_of_fits {l : Lexer φ} {group : String} {value : Option String}
    (h : l.current.fits group value = true) (patience : Nat) :
    l.call patience (.expect group value) =
      ((l.advance patience).1.map fun t => .token (some t), (l.advance patience).2) :=
  call_of_passes (c := .expect group value) h patience

/-- A handler that looks at the report only is given the report of a mismatch, and nothing else happens. -/
theorem call_of_mismatch {l : Lexer φ} (hq : l.handler.isQuiet = true) {c : Call φ} {m : Mismatch}
    (hm : c.mismatch? l.current = some m) (patience : Nat) :
    (l.call patience c).2 = (l.note (.expected m)).note (.delivered l.handler m) := by
  cases c with
  | expect group value =>
    cases hf : l.current.fits group value with
    | true => simp [Call.mismatch?, hf] at hm
    | false =>
      obtain rfl : _ = m := by simpa [Call.mismatch?, hf] using hm
      simp only [call]
      rw [expect_of_not_fits patience hf]
      cases hh : l.handler with
      | default => rfl
      | answer label reply => rfl
      | _ => simp [hh, Handler.isQuiet] at hq
  | _ => cases hm

/-- A call that is no mismatch calls no handler; it may install one. -/
theorem call_of_no_mismatch {l : Lexer φ} {c : Call φ} (hm : c.mismatch? l.current = none) (patience : Nat) :
    (l.call patience c).2.handler = c.handler?.getD l.handler ∧
      ∃ new, (l.call patience c).2.events = l.events ++ new ∧ ∀ e ∈ new, e.isRemark = false := by
  have hsilent : ∀ {l' : Lexer φ}, Silent l l' → l'.handler = l.handler ∧
      ∃ new, l'.events = l.events ++ new ∧ ∀ e ∈ new, e.isRemark = false :=
    fun h => ⟨h.handler_eq, h.events_eq⟩
  have hsteady := Silent.steady l patience
  cases c with
  | advance => exact hsilent (.of_advances (l.advance_advances patience))
  | peek => exact hsilent (.refl l)
  | accept group value => exact hsilent (meets_self.1 (hsteady.of_accept (.refl l)))
  | expect group value =>
    have hf : l.current.fits group value = true := by
      simpa [Call.mismatch?] using hm
    rw [call_expect_of_fits hf]
    exact hsilent (.of_advances (l.advance_advances patience))
  | filter f => exact hsilent (.of_refilters (l.filter_refilters patience f))
  | onerror h =>
    refine ⟨rfl, [.handlerSet h], ?_, by simp [Event.isRemark]⟩
    simp [call, onerror, become, events, Intake.events, note]
  | drain most => exact hsilent (meets_self.1 (hsteady.of_drain (.refl l)))
  | describe => exact hsilent (.refl l)

/-! ### Runs -/

/-- What calls owe to handlers: for each expectation that is not met, in order, the handler that was installed last, or
`h` before any was, and the report. -/
def owed (patience : Nat) : Handler φ → Lexer φ → List (Call φ) → List (Handler φ × Mismatch)
  | _, _, [] => []
  | h, l, c :: cs =>
    (c.mismatch? l.current).toList.map (h, ·) ++ owed patience (c.handler?.getD h) (l.call patience c).2 cs

/-- A call remarks what it owes, and leaves the handler that it installs. -/
theorem call_remarks {l : Lexer φ} (hq : l.handler.isQuiet = true) (patience : Nat) (c : Call φ) :
    (l.call patience c).2.handler = c.handler?.getD l.handler ∧
      (l.call patience c).2.events.filter Event.isRemark =
        l.events.filter Event.isRemark ++ (c.mismatch? l.current).toList.flatMap (remarks l.handler) := by
  cases hm : c.mismatch? l.current with
  | none =>
    obtain ⟨hh, new, hn, hnew⟩ := call_of_no_mismatch hm patience
    refine ⟨hh, ?_⟩
    rw [hn, filter_isRemark_append hnew]
    exact (List.append_nil _).symm
  | some m =>
    rw [call_of_mismatch hq hm]
    constructor
    · cases c with
      | onerror => cases hm
      | _ => rfl
    · simp [events, Intake.events, note, remarks, Event.isRemark]

theorem run_remarks {l : Lexer φ} (hq : l.handler.isQuiet = true) {calls : List (Call φ)}
    (quiet : ∀ c ∈ calls, ∀ h ∈ c.handler?, h.isQuiet = true) (patience : Nat) :
    (l.run patience calls).2.handler = lastHandler l.handler calls ∧
      (l.run patience calls).2.handler.isQuiet = true ∧
      (l.run patience calls).2.events.filter Event.isRemark =
        l.events.filter Event.isRemark ++
          (owed patience l.handler l calls).flatMap fun x => remarks x.1 x.2 := by
  induction calls generalizing l with
  | nil => exact ⟨rfl, hq, by simp [run, owed]⟩
  | cons c cs ih =>
    rw [List.forall_mem_cons] at quiet
    obtain ⟨hh, hr⟩ := call_remarks hq patience c
    have hq' : (l.call patience c).2.handler.isQuiet = true := by
      rw [hh]
      cases hc : c.handler? with
      | none => exact hq
      | some h => exact quiet.1 h hc
    obtain ⟨ihh, ihq, ihr⟩ := ih hq' quiet.2
    refine ⟨?_, ihq, ?_⟩
    · refine ihh.trans ?_
      rw [hh]
      cases hc : c.handler? with
      | none => simp [lastHandler, hc]
      | some h => simp [lastHandler, hc, List.getLast?_cons]
    · refine ihr.trans ?_
      rw [hr, hh, owed, List.flatMap_append, List.append_assoc]
      congr 2
      cases c.mismatch? l.current <;> simp

/-- A lexer that is made remarked nothing. -/
theorem create_silent {i : Intake φ} {h : Handler φ} {l : Lexer φ} (hr : i.record = [])
    (created : (create patience i h).1 = .ok l) : l.handler = h ∧ l.events.filter Event.isRemark = [] := by
  obtain ⟨t, j, rfl, -, hf⟩ := create_eq_ok created
  obtain ⟨drawn, hd, hj⟩ := hf.record_eq
  refine ⟨rfl, List.filter_eq_nil_iff.2 fun e he => ?_⟩
  have he : e ∈ j.record := List.mem_reverse.1 he
  rw [hj, Intake.note_record, hr] at he
  rcases List.mem_append.1 he with he | he
  · simp [Event.isRemark_of_isDraw (hd e he)]
  · simp [List.mem_singleton.1 he, Event.isRemark]

/-- Handlers that look at the report only are given what is owed to them, in order, each report once and right behind
the message about it. No other call is told to a handler: not one that finds what it expects and fails in advancing, the
failure of which is that of advancing. -/
theorem mismatches_delivered_once {input : String} {feed : Feed} {f : Option φ} {handler : Handler φ} {l₀ : Lexer φ}
    (created : (create patience { source := ⟨input⟩, feed, common := f } handler).1 = .ok l₀)
    (hq : handler.isQuiet = true) {calls : List (Call φ)}
    (quiet : ∀ c ∈ calls, ∀ h ∈ c.handler?, h.isQuiet = true) :
    let l := (l₀.run patience calls).2
    let due := owed patience handler l₀ calls
    l.events.filter Event.isRemark = (due.flatMap fun x => remarks x.1 x.2) ∧
      l.messages.filter isExpectation = due.map (fun x => Event.expectation x.2) ∧
      (∀ c m, c.mismatch? l.current = some m →
        (l.call patience c).2.events = l.events ++ remarks (lastHandler handler calls) m) ∧
      (∀ c, c.mismatch? l.current = none →
        ∃ new, (l.call patience c).2.events = l.events ++ new ∧ ∀ e ∈ new, e.isRemark = false) ∧
      ∀ group value, l.current.fits group value = true →
        (l.call patience (.expect group value)).1 = (l.advance patience).1.map fun t => .token (some t) := by
  intro l due
  obtain ⟨hh, hr⟩ := create_silent rfl created
  subst hh
  obtain ⟨hlast, hql, hremarks⟩ := run_remarks hq quiet patience
  rw [hr, List.nil_append] at hremarks
  refine ⟨hremarks, ?_, fun c m hm => ?_, fun c hm => (call_of_no_mismatch hm patience).2, fun group value h => ?_⟩
  · rw [messages, List.filter_filterMap]
    simp only [Event.message?_filter_isExpectation]
    rw [← List.map_filterMap, filterMap_mismatch?_eq, hremarks, mismatches_flatMap_remarks, List.map_map]
    rfl
  · rw [call_of_mismatch hql hm, ← hlast]
    simp [events, Intake.events, note, remarks, l]
  · rw [call_expect_of_fits h]

/-- The default handler, one that lets a mismatch pass and one that fails are told of a mismatch each; an expectation
that is met, and fails in advancing, is told to none of them. -/
theorem mismatches_delivered_once_to_each :
    let word : Token := ⟨"word", "ab", 0, some ⟨"ab;"⟩⟩
    let feed := Feed.ofList [.item (.token word), .fail (.raised "torn"), .item (.token ⟨"mark", ";", 2, none⟩)]
    let record : List (Event Filter) := [.pulled 0 (.kept word), .created (Source.size ⟨"ab;"⟩)]
    let l₀ : Lexer Filter := ⟨{ source := ⟨"ab;"⟩, feed := feed.next.2, record }, none, word, .default⟩
    let calls : List (Call Filter) := [.expect "mark" none, .onerror .collect, .expect "mark" (some ";"),
      .expect "word" none, .onerror (.raise "stop"), .expect "word" (some "cd"), .accept "mark" none]
    let due := [(Handler.default, ⟨word, "mark", none⟩), (.collect, ⟨word, "mark", some ";"⟩),
      (.raise "stop", ⟨word, "word", some "cd"⟩)]
    let l := (l₀.run 5 calls).2
    (create 5 { source := ⟨"ab;"⟩, feed } .default).1 = .ok l₀ ∧ owed 5 .default l₀ calls = due ∧
      (l₀.run 5 calls).1.map Except.isOk = [false, true, true, false, true, false, true] ∧
      l.events.filter Event.isRemark = (due.flatMap fun x => remarks x.1 x.2) ∧
      l.messages.filter isExpectation = ["Expected mark, got word 'ab' at 0", "Expected mark, got word 'ab' at 0",
        "Expected word, got word 'ab' at 0"] := by
  intro word feed record l₀ calls due l
  have created : (create 5 { source := ⟨"ab;"⟩, feed } .default).1 = .ok l₀ := rfl
  have quiet : ∀ c ∈ calls, ∀ h ∈ c.handler?, h.isQuiet = true := by
    simp [calls, Call.handler?, Handler.collect, Handler.raise, Handler.isQuiet]
  obtain ⟨hremarks, hmessages, -⟩ := mismatches_delivered_once created rfl quiet
  exact ⟨created, rfl, by decide +kernel, hremarks, hmessages.trans (by decide +kernel)⟩

end Lexer

end Lookahead
