import Lookahead.Proofs.Chronicle

/-!
# Questions and pulls

If there always is a filter, it is asked once about each item that is a token, with its pull, and once about the current
token when it is installed on a lexer that is not at its end; it is never asked about anything else, and never about the
token at the end of the text (`Session.evaluations_accounted`). A lexer pulls the items that it consumes and, if it gets
there, the end of its feed once. All of this is read off the pieces that the events of a session come in.
-/

namespace Lookahead

/-- There is no item. -/
def Pull.isStop : Pull → Bool
  | .stop => true
  | _ => false

theorem Pull.read_of_isStop {a : Pull} (h : a.isStop = true) (s : Source) : a.read s = .ok none := by
  cases a with
  | stop => rfl
  | _ => cases h

/-- The positions of the pulls of one lexer go up, and there is one for each item that was consumed and one more if the
end was found. -/
structure Feed.Consumes (feed : Feed) (ks : List Nat) : Prop where
  increasing : ks.Pairwise (· < ·)
  length_eq : ks.length =
    ks.countP (fun k => !(feed.outcome k).isStop) + if ks.any (fun k => (feed.outcome k).isStop) then 1 else 0

namespace Replay

variable {φ : Type}

variable [Judge φ] {x : Replay φ} {es : List (Event φ)}

/-- There is a filter, whichever is in force. -/
def Filtered (x : Replay φ) : Prop := x.intake.common.isSome = true ∧ ∀ p, x.intake.active = .own p → p.isSome = true

omit [Judge φ] in
theorem Filtered.filter_eq (h : x.Filtered) : ∃ p, x.intake.filter = some p := by
  unfold Intake.filter
  cases ha : x.intake.active with
  | common => exact Option.isSome_iff_exists.1 h.1
  | own p => exact Option.isSome_iff_exists.1 (h.2 p ha)

theorem Filtered.after (h : x.Filtered) {e : Event φ} (he : e ≠ .filterSet none) : (x.after e).Filtered := by
  obtain ⟨hc, ha⟩ := h
  cases e with
  | judged p t v =>
    unfold Filtered Replay.after Intake.putFilter
    cases hactive : x.intake.active with
    | common => exact ⟨rfl, fun q hq => ha q (hactive.trans hq)⟩
    | own q => exact ⟨hc, fun q hq => by cases hq; rfl⟩
  | pulled k fate =>
    unfold Filtered Replay.after
    rw [receive_intake]
    exact ⟨hc, ha⟩
  | filterSet p =>
    refine ⟨hc, fun q hq => ?_⟩
    obtain rfl : p = q := Active.own.inj hq
    cases p with
    | none => exact absurd rfl he
    | some p => rfl
  | _ => exact ⟨hc, ha⟩

/-- A piece of events holds one pull or none. -/
theorem Allows.indices (h : x.Allows es) :
    (es.filterMap Event.index? = [] ∧ (x.along es).intake.feed = x.intake.feed ∧
      (x.along es).intake.exhausted = x.intake.exhausted) ∨
    (es.filterMap Event.index? = [x.intake.feed.taken] ∧ (x.along es).intake.feed = x.intake.feed.next.2 ∧
      x.intake.exhausted = false ∧ (x.intake.upcoming = .ok none → (x.along es).intake.exhausted = true)) := by
  cases h with
  | unread hx hu => exact .inr ⟨rfl, by simp [along, Event.isPull], hx, fun h => nomatch hu.symm.trans h⟩
  | ended hx hu =>
    exact .inr ⟨rfl, by simp [along, Event.isPull], hx, fun _ => by simp [along, Event.isEnding, Fate.isEnd]⟩
  | unasked hx hu hp => exact .inr ⟨rfl, by simp [along, Event.isPull], hx, fun h => by cases hu.symm.trans h⟩
  | asked hx hu hp => exact .inr ⟨rfl, by simp [along, Event.isPull], hx, fun h => by cases hu.symm.trans h⟩
  | refiltered h => exact .inl ⟨rfl, rfl, rfl⟩
  | reasked hv hc => exact .inl ⟨rfl, by simp [along, Event.isPull], by simp [along, Event.isEnding]⟩
  | consumed hv => exact .inl ⟨rfl, rfl, rfl⟩
  | discarded hv => exact .inl ⟨rfl, rfl, rfl⟩
  | aside h =>
    rw [along, List.foldl_cons, after_of_isAside h]
    refine .inl ⟨?_, rfl, rfl⟩
    revert h
    rename_i e
    cases e <;> simp [Event.isAside, Event.index?]

end Replay

namespace Scene

variable {φ : Type} [Judge φ] {shared : Bool} {x : Scene φ} {trace : List (Nat × Event φ)} {n : Nat}

/-- How many filters are installed, by calls or by handlers, on lexers that are not at their end. -/
def rechecks (shared : Bool) : Scene φ → List (Nat × Event φ) → Nat
  | _, [] => 0
  | x, (n, e) :: rest =>
    (if e.installed?.isSome && !(x n).atEnd then 1 else 0) + rechecks shared (x.after shared (n, e)) rest

theorem rechecks_append (x : Scene φ) (trace trace' : List (Nat × Event φ)) :
    x.rechecks shared (trace ++ trace') =
      x.rechecks shared trace + (x.along shared trace).rechecks shared trace' := by
  induction trace generalizing x with
  | nil => exact (Nat.zero_add _).symm
  | cons a trace ih =>
    rw [List.cons_append, rechecks, rechecks, ih, Nat.add_assoc]
    rfl

/-- No lexer is ever without a filter. -/
def Filtered (x : Scene φ) : Prop := ∀ n, (x n).Filtered

theorem Filtered.after (h : x.Filtered) {a : Nat × Event φ} (ha : a.2 ≠ .filterSet none) :
    (x.after shared a).Filtered := by
  intro m
  have hself := (h a.1).after ha
  by_cases hm : m = a.1
  · rw [hm, Scene.after, put_self]
    exact hself
  · rw [Scene.after, put_of_ne hm]
    exact ⟨hself.1, (h m).2⟩

theorem Filtered.along (h : x.Filtered) (ht : ∀ a ∈ trace, a.2 ≠ .filterSet none) :
    (x.along shared trace).Filtered := by
  induction trace generalizing x with
  | nil => exact h
  | cons a trace ih =>
    rw [List.forall_mem_cons] at ht
    exact ih (h.after ht.1) ht.2

/-- A piece of events of another lexer may move a shared feed, and nothing else of what the lexer reads. -/
private theorem Agrees.of_ne (agrees : x.Agrees shared) {m : Nat} {es : List (Event φ)} (h : (x m).Allows es)
    (hn : n ≠ m) :
    let y := x.along shared (es.map (m, ·))
    (y n).intake.exhausted = (x n).intake.exhausted ∧ (x n).intake.feed.taken ≤ (y n).intake.feed.taken := by
  dsimp only
  rw [agrees.along_map, put_of_ne hn]
  refine ⟨rfl, ?_⟩
  have hle : (x m).intake.feed.taken ≤ ((x m).along es).intake.feed.taken := by
    rcases h.indices with ⟨-, hfeed, -⟩ | ⟨-, hfeed, -⟩
    · exact Nat.le_of_eq (congrArg Feed.taken hfeed.symm)
    · rw [hfeed]
      exact Nat.le_succ _
  cases hs : shared with
  | false => exact Nat.le_refl _
  | true =>
    rw [agrees.feed_eq hs n m]
    exact hle

/-- What a lexer pulls, it pulls in order, up to the end. -/
theorem Lawful.consumes (h : Lawful shared x trace) (agrees : x.Agrees shared) (n : Nat) :
    let ks := (own n trace).filterMap Event.index?
    (x n).intake.feed.Consumes ks ∧ (∀ k ∈ ks, (x n).intake.feed.taken ≤ k) ∧
      ((x n).intake.exhausted = true → ks = []) := by
  induction h with
  | nil x => exact ⟨⟨.nil, rfl⟩, nofun, fun _ => rfl⟩
  | @cons x m es rest h _ ih =>
    have houtcome := agrees.along_outcome (es.map (m, ·)) n
    obtain ⟨hconsumes, hbehind, hend⟩ := ih (agrees.along _)
    have hrest : (x n).intake.feed.Consumes ((own n rest).filterMap Event.index?) := by
      have hlength := hconsumes.length_eq
      rw [houtcome] at hlength
      exact ⟨hconsumes.increasing, hlength⟩
    dsimp only
    rw [own_append, List.filterMap_append]
    by_cases hn : n = m
    · subst hn
      rw [along_map_self] at hbehind hend
      rw [own_map_self]
      rcases h.indices with ⟨hes, hfeed, hexhausted⟩ | ⟨hes, hfeed, hopen, hfound⟩
      · rw [hfeed] at hbehind
        rw [hexhausted] at hend
        rw [hes]
        exact ⟨hrest, hbehind, hend⟩
      · rw [hfeed] at hbehind
        rw [hes]
        refine ⟨⟨?_, ?_⟩, ?_, fun hx => absurd (hopen.symm.trans hx) Bool.false_ne_true⟩
        · exact List.pairwise_cons.2 ⟨fun k hk => hbehind k hk, hrest.increasing⟩
        · have hlength := hrest.length_eq
          cases hstop : ((x n).intake.feed.outcome (x n).intake.feed.taken).isStop with
          | true =>
            -- Behind the end there is nothing.
            rw [hend (hfound (Pull.read_of_isStop hstop _))]
            simp [hstop]
          | false =>
            simp only [List.singleton_append, List.length_cons, List.countP_cons, List.any_cons, hstop,
              Bool.not_false, ↓reduceIte, Bool.false_or]
            omega
        · refine List.forall_mem_cons.2 ⟨Nat.le_refl _, fun k hk => Nat.le_of_succ_le (hbehind k hk)⟩
    · obtain ⟨hexhausted, hle⟩ := agrees.of_ne h hn
      rw [hexhausted] at hend
      rw [own_map_of_ne hn]
      exact ⟨hrest, fun k hk => Nat.le_trans hle (hbehind k hk), hend⟩

/-- An item was pulled that is a token. -/
def converts (x : Scene φ) : Nat × Event φ → Bool
  | (n, .pulled k _) =>
    match x.reads n k with
    | .ok (some _) => true
    | _ => false
  | _ => false

/-- In a piece of events there is one question for each item that is a token, and for each filter that is installed
before the end. -/
private theorem countP_piece (shared : Bool) {es : List (Event φ)} (h : (x n).Allows es) (filtered : (x n).Filtered)
    (hes : ∀ e ∈ es, e ≠ .filterSet none) :
    (es.map (n, ·)).countP (·.2.isJudgement) =
      (es.map (n, ·)).countP x.converts + x.rechecks shared (es.map (n, ·)) := by
  cases h with
  | unread hx hu => simp [rechecks, converts, reads_taken, hu, Event.isJudgement, Event.installed?]
  | ended hx hu => simp [rechecks, converts, reads_taken, hu, Event.isJudgement, Event.installed?]
  | unasked hx hu hp =>
    obtain ⟨p, hp'⟩ := filtered.filter_eq
    cases hp.symm.trans hp'
  | asked hx hu hp => simp [rechecks, converts, reads_taken, hu, Event.isJudgement, Event.installed?]
  | refiltered h =>
    have hend := h.resolve_left fun hp => hes _ List.mem_cons_self (hp ▸ rfl)
    simp [rechecks, converts, hend, Event.isJudgement, Event.installed?]
  | reasked hv hc => simp [rechecks, converts, Replay.atEnd, hv, hc, Event.isJudgement, Event.installed?]
  | consumed hv => simp [rechecks, converts, Event.isJudgement, Event.installed?]
  | discarded hv => simp [rechecks, converts, Event.isJudgement, Event.installed?]
  | @aside e h =>
    have he : e.isJudgement = false ∧ e.installed?.isSome = false ∧ x.converts (n, e) = false := by
      revert h
      cases e <;> simp [Event.isAside, Event.isJudgement, Event.installed?, converts]
    simp [rechecks, he]

/-- With a filter in force at all times, it is asked about every item that is a token, and once when it is installed
before the end. -/
theorem Lawful.countP_judgement (h : Lawful shared x trace) (agrees : x.Agrees shared) (filtered : x.Filtered)
    (ht : ∀ a ∈ trace, a.2 ≠ .filterSet none) :
    trace.countP (·.2.isJudgement) = trace.countP x.converts + x.rechecks shared trace := by
  induction h with
  | nil => rfl
  | @cons x n es rest h _ ih =>
    rw [List.forall_mem_append] at ht
    have hpiece := countP_piece shared h (filtered n) fun e he =>
      ht.1 (n, e) (List.mem_map.2 ⟨e, he, rfl⟩)
    have hrest := ih (agrees.along _) (filtered.along ht.1) ht.2
    have hconverts : (x.along shared (es.map (n, ·))).converts = x.converts := by
      unfold converts
      rw [agrees.reads_along]
    rw [hconverts] at hrest
    rw [List.countP_append, List.countP_append, rechecks_append, hpiece, hrest]
    omega

end Scene

namespace Session

variable {φ : Type} [Judge φ]

/-- The counts of a session are those of its events. -/
theorem run_counts (patience : Nat) (s : Session φ) (steps : List (Step φ)) :
    let s' := (s.run patience steps).2
    let trace := s.trace patience steps
    s'.judgements = s.judgements + trace.countP (·.2.isJudgement) ∧
      s'.pulls = s.pulls + trace.countP (·.2.isPull) := by
  induction steps generalizing s with
  | nil => exact ⟨rfl, rfl⟩
  | cons step steps ih =>
    have hcounts := s.step_counts patience step
    rw [run_cons, trace_cons]
    rcases hs : s.step patience step with ⟨r, s'⟩
    rw [hs] at hcounts
    obtain ⟨hpulls, hpulls', hjudgements, hjudgements'⟩ := hcounts
    obtain ⟨hj, hp⟩ := ih s'
    have hcount : ∀ g : Event φ → Bool,
        (r.events.map (s.subject step, ·)).countP (fun a => g a.2) = r.events.countP g := by
      intro g
      rw [List.countP_map]
      rfl
    dsimp only
    rw [List.countP_append, List.countP_append, hcount, hcount]
    exact ⟨by omega, by omega⟩

/-- If there always is a filter, the questions are those about the items that are tokens and those about the current
token when a filter is installed before the end. A token is asked about once, right before its pull is settled, by the
filter that is in force then in the lexer that pulls it; no other question is asked, so the token at the end is never
asked about. A lexer pulls each item that it consumes once, and the end of its feed once if it finds it. What is known
at any time about a lexer is what its events tell, and this is how it is in the end. -/
theorem evaluations_accounted {f : Factory φ} (patience : Nat) (steps : List (Step φ))
    (filtered : f.filter.isSome = true) (installed : ∀ n, (n, .filterSet none) ∉ (start f).trace patience steps) :
    let s := ((start f).run patience steps).2
    let trace := (start f).trace patience steps
    let inputs := steps.filterMap Step.input?
    let x := f.scene inputs
    s.judgements = trace.countP (·.2.isJudgement) ∧ s.pulls = trace.countP (·.2.isPull) ∧
      s.judgements = trace.countP x.converts + x.rechecks f.shared trace ∧
      (∀ before n k fate after t, trace = before ++ (n, .pulled k fate) :: after → x.reads n k = .ok (some t) →
        ∃ before' p, let y := x.along f.shared before' n
          y.intake.filter = some p ∧ before = before' ++ [(n, .judged p t (Judge.judge p y.view t).1)] ∧
            fate = .under t (Judge.judge p y.view t).1) ∧
      (∀ before n p t v after, trace = before ++ (n, .judged p t v) :: after →
        let y := x.along f.shared before n
        y.intake.filter = some p ∧ v = (Judge.judge p y.view t).1 ∧
          ((∃ k rest, after = (n, .pulled k (.under t v)) :: rest ∧ x.reads n k = .ok (some t)) ∨
            ∃ before', before = before' ++ [(n, .filterSet (some p))] ∧ y.view.map View.current = some t ∧
              t.isEof = false)) ∧
      (∀ n, let ks := (own n trace).filterMap Event.index?
        ks.length = (own n trace).countP Event.isPull ∧ (f.stream inputs n).Consumes ks) ∧
      ∀ n l, s.lexers[n]? = some (some l) →
        x.along f.shared trace n = { intake := s.lend l.intake, view := some l.view } := by
  intro s trace inputs x
  obtain ⟨hlawful, hdepicted⟩ := chronicle f patience steps
  obtain ⟨hj, hp⟩ := run_counts patience (start f) steps
  have agrees : x.Agrees f.shared := (Depicted.start f inputs).agrees
  have hfiltered : x.Filtered := fun n => ⟨filtered, nofun⟩
  have hinstalled : ∀ a ∈ trace, a.2 ≠ .filterSet none := fun a ha he => installed a.1 (he ▸ ha)
  have hj : s.judgements = trace.countP (·.2.isJudgement) := hj.trans (Nat.zero_add _)
  refine ⟨hj, hp.trans (Nat.zero_add _), ?_, ?_, ?_, fun n => ⟨?_, ?_⟩, fun n l hl => hdepicted.made hl⟩
  · exact hj.trans (hlawful.countP_judgement agrees hfiltered hinstalled)
  · intro before n k fate after t htrace hreads
    obtain ⟨pre, es, fs, post, rfl, -, hallows⟩ := hlawful.piece htrace
    have htrace : trace = pre ++ (es.map (n, ·) ++ (n, .pulled k fate) :: after) := by rw [htrace, List.append_assoc]
    have hpre : ∀ a ∈ pre, a.2 ≠ .filterSet none := fun a ha =>
      hinstalled a (htrace ▸ List.mem_append_left _ ha)
    have hprefiltered : (x.along f.shared pre n).Filtered := hfiltered.along hpre n
    obtain ⟨p, hp⟩ := hprefiltered.filter_eq
    obtain ⟨rfl, -, hasked⟩ := hallows.of_pulled
    rw [← agrees.reads_along pre] at hreads
    obtain ⟨rfl, hfate⟩ := hasked t hreads p hp
    exact ⟨pre, p, hp, rfl, hfate⟩
  · intro before n p t v after htrace
    obtain ⟨pre, es, fs, post, rfl, rfl, hallows⟩ := hlawful.piece htrace
    obtain ⟨hp, hv, hcase⟩ := hallows.of_judged
    dsimp only
    rw [Scene.along_append, Scene.along_map_self]
    refine ⟨hp, hv, ?_⟩
    rcases hcase with ⟨rfl, hu, rfl⟩ | ⟨rfl, hc, ht⟩
    · refine .inl ⟨_, post, rfl, ?_⟩
      rw [← agrees.reads_along pre]
      exact hu
    · exact .inr ⟨pre, rfl, hc, ht⟩
  · rw [List.length_filterMap_eq_countP]
    refine List.countP_congr fun e _ => ?_
    cases e <;> simp [Event.index?, Event.isPull]
  · exact (hlawful.consumes agrees n).1

/-- Two lexers share a feed and a filter that counts, and the making of a third one fails. A token of the feed claims
the end; it is asked about when it is pulled, but not by the filter that is installed behind it. The other filter fails
about the current token and about two items. -/
theorem evaluations_accounted_of_three :
    let word (value : String) (index : Nat) : Pull := .item (.token ⟨"word", value, index, none⟩)
    let stream := Feed.ofList [word "a" 0, word "b" 1, .fail (.raised "lost"), word "c" 2,
      .item (.token ⟨"eof", ";", 3, none⟩), word "d" 4, word "e" 5]
    let f : Factory Filter :=
      { tokenizer := fun _ => .ok stream, shared := true, filter := some (.ofKind "every" (.every 2 0)) }
    let steps : List (Step Filter) := [.lex "abc;de", .lex "abc;de", .lex "abc;de",
      .call 2 (.filter (some (.ofKind "const" (.const false)))),
      .call 0 (.filter (some (.ofKind "raise" (.raise "word" "no")))), .call 0 .advance, .call 0 .advance,
      .call 0 .advance]
    let s := ((start f).run 9 steps).2
    let trace := (start f).trace 9 steps
    f.filter.isSome = true ∧ (∀ n, (n, .filterSet none) ∉ trace) ∧ s.judgements = 6 + 1 ∧
      (own 0 trace).filterMap Event.index? = [0, 1, 5, 6, 7] ∧ stream.Consumes [0, 1, 5, 6, 7] := by
  intro word stream f steps s trace
  have hset : trace.filterMap (·.2.installed?) =
      [some (.ofKind "const" (.const false)), some (.ofKind "raise" (.raise "word" "no"))] := by decide +kernel
  have installed : ∀ n, (n, .filterSet none) ∉ trace := by
    intro n h
    have hmem : none ∈ trace.filterMap (·.2.installed?) := List.mem_filterMap.2 ⟨_, h, rfl⟩
    rw [hset] at hmem
    simp at hmem
  obtain ⟨-, -, hj, -, -, hpulls, -⟩ := evaluations_accounted (f := f) 9 steps rfl installed
  have hindices : (own 0 trace).filterMap Event.index? = [0, 1, 5, 6, 7] := by decide +kernel
  have hconsumes := (hpulls 0).2
  rw [hindices] at hconsumes
  have hcounts : trace.countP (f.scene (steps.filterMap Step.input?)).converts = 6 ∧
      (f.scene (steps.filterMap Step.input?)).rechecks true trace = 1 := by decide +kernel
  rw [hcounts.1] at hj
  exact ⟨rfl, installed, hj.trans (congrArg (6 + ·) hcounts.2), hindices, hconsumes⟩

end Session

end Lookahead
