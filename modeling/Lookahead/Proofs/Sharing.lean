import Lookahead.Proofs.Returns

/-!
# Sharing a feed

Any number of lexers read from one feed, in any order, and attempts to make lexers may fail. What they pull together are
the items of the feed in order, each pulled by one of them, and each token that was current in a lexer is still current
or was given up once by that lexer (`Session.sharing_loses_nothing`). The invariant is `Session.Accounted`: the events
of each lexer are an account of that lexer (`Intake.Account`, `Balanced`), and all events together one of the feed.
-/

namespace Lookahead

/-- The input that another lexer is asked for. -/
def Step.input? {φ : Type} : Step φ → Option String
  | lex input => some input
  | call _ _ => none

/-- The events of one lexer. -/
def own {φ : Type} (n : Nat) (trace : List (Nat × Event φ)) : List (Event φ) :=
  trace.filterMap fun x => if x.1 = n then some x.2 else none

section Own

variable {φ : Type} {n m : Nat} {trace : List (Nat × Event φ)} {new : List (Event φ)}

theorem own_append (before after : List (Nat × Event φ)) : own n (before ++ after) = own n before ++ own n after :=
  List.filterMap_append

theorem own_cons_self (e : Event φ) : own n ((n, e) :: trace) = e :: own n trace :=
  List.filterMap_cons_some (if_pos rfl)

theorem own_eq_nil (h : ∀ x ∈ trace, x.1 ≠ n) : own n trace = [] := by
  unfold own
  rw [List.filterMap_eq_nil_iff]
  intro x hx
  exact if_neg (h x hx)

theorem own_map_self : own n (new.map (n, ·)) = new := by
  induction new with
  | nil => rfl
  | cons e new ih => rw [List.map_cons, own_cons_self, ih]

theorem own_map_of_ne (h : m ≠ n) : own m (new.map (n, ·)) = [] := by
  apply own_eq_nil
  intro x hx
  obtain ⟨e, -, rfl⟩ := List.mem_map.1 hx
  exact Ne.symm h

theorem own_append_self : own n (trace ++ new.map (n, ·)) = own n trace ++ new := by
  rw [own_append, own_map_self]

theorem own_append_of_ne (h : m ≠ n) : own m (trace ++ new.map (n, ·)) = own m trace := by
  rw [own_append, own_map_of_ne h, List.append_nil]

end Own

/-- No handler that was told of a mismatch in the step catches a failure. -/
def Reply.Candid {φ : Type} (r : Reply φ) : Prop := ∀ h m, .delivered h m ∈ r.events → h.Candid

/-- At most one item was lost in the step, and then its result is the failure of that item. -/
def Reply.LostOnly {φ : Type} (r : Reply φ) : Prop :=
  r.events.filterMap Event.lost? = [] ∨ ∃ g, r.result = .error (.failed g) ∧ r.events.filterMap Event.lost? = [g]

namespace Session

variable {φ : Type} [Judge φ]

/-- The number of the lexer that a step is about. -/
def subject (s : Session φ) : Step φ → Nat
  | .lex _ => s.lexers.size
  | .call n _ => n

/-- All events of a run in order, each with the number of its lexer. -/
def trace (patience : Nat) : Session φ → List (Step φ) → List (Nat × Event φ)
  | _, [] => []
  | s, step :: steps =>
    (s.step patience step).1.events.map (s.subject step, ·) ++ trace patience (s.step patience step).2 steps

theorem run_cons (s : Session φ) (patience : Nat) (step : Step φ) (steps : List (Step φ)) :
    s.run patience (step :: steps) =
      ((s.step patience step).1 :: ((s.step patience step).2.run patience steps).1,
        ((s.step patience step).2.run patience steps).2) := rfl

theorem trace_cons (s : Session φ) (patience : Nat) (step : Step φ) (steps : List (Step φ)) :
    s.trace patience (step :: steps) =
      (s.step patience step).1.events.map (s.subject step, ·) ++ (s.step patience step).2.trace patience steps := rfl

/-- The events `h` of a number are an account of its lexer; without a lexer nothing came in. -/
def Settles (outcome : Nat → Pull) (s : Source) (f₀ : Option φ) (h : List (Event φ)) : Option (Lexer φ) → Prop
  | some l => l.intake.Account outcome s f₀ h ∧ Balanced s h l.intake.exhausted l.current
  | none => AllFair outcome s f₀ h ∧ h.filterMap Event.arrived? = [] ∧ h.filterMap Event.left? = []

/-- What the events `h` of a lexer over the text `s` tell of its end and of its tokens; without a lexer no token came
in. -/
def Keeps (s : Source) (h : List (Event φ)) : Option (Lexer φ) → Prop
  | some l => l.intake.exhausted = h.any Event.isEnding ∧ Balanced s h l.intake.exhausted l.current
  | none => h.filterMap Event.arrived? = [] ∧ h.filterMap Event.left? = []

theorem Settles.fair {outcome : Nat → Pull} {s : Source} {f₀ : Option φ} {h : List (Event φ)} {o : Option (Lexer φ)}
    (hs : Settles outcome s f₀ h o) : AllFair outcome s f₀ h := by
  cases o with
  | none => exact hs.1
  | some l => exact hs.1.fair

theorem Settles.keeps {outcome : Nat → Pull} {s : Source} {f₀ : Option φ} {h : List (Event φ)} {o : Option (Lexer φ)}
    (hs : Settles outcome s f₀ h o) : Keeps s h o := by
  cases o with
  | none => exact hs.2
  | some l => exact ⟨hs.1.exhausted_eq, hs.2⟩

/-- The reply `r` to the call `c` on the lexer `l` tells what the call gave up, and behind a mismatch what the handler
did, which is nothing if it looks at the report only. -/
def Leaves (l : Lexer φ) (c : Call φ) (r : Reply φ) : Prop :=
  ∃ direct later, r.events = direct ++ later ∧ (∀ e ∈ direct, e.isMismatch = false) ∧
    (∀ e ∈ later.head?, e.isMismatch = true) ∧ c.Leaves l.current r.result (direct.filterMap Event.left?) ∧
    (l.handler.isQuiet = true → later.filterMap Event.left? = [])

/-- The lexers of the session `s`, which were asked for over `inputs`, did what `trace` tells. -/
structure Accounted (f : Factory φ) (stream : Feed) (inputs : List String) (trace : List (Nat × Event φ))
    (s : Session φ) : Prop where
  factory_eq : s.factory = f
  filter_eq : s.filter = f.filter
  size_eq : s.lexers.size = inputs.length
  feed_isSome {n : Nat} {l : Lexer φ} : s.lexers[n]? = some (some l) → s.feed.isSome = true
  outcome_eq : (s.feed.getD stream).outcome = stream.outcome
  taken_eq : (s.feed.getD stream).taken = stream.taken + trace.countP (·.2.isPull)
  indices_eq : trace.filterMap (·.2.index?) = List.range' stream.taken (trace.countP (·.2.isPull))
  owned : ∀ x ∈ trace, x.1 < inputs.length
  settles {n : Nat} {input : String} : inputs[n]? = some input →
    Settles stream.outcome ⟨input⟩ f.filter (own n trace) s.lexers[n]?.join

theorem call_of_some {s : Session φ} {n : Nat} {l : Lexer φ} (hl : s.lexers[n]? = some (some l)) (patience : Nat)
    (c : Call φ) :
    s.call patience n c =
      let (r, l') := ({ l with intake := s.lend l.intake } : Lexer φ).call patience c
      let s' := { s.takeBack l'.intake with lexers := s.lexers.setIfInBounds n (some l') }
      (⟨r, some l', s'.pulls, s'.judgements, l'.events⟩, s') := by
  unfold Session.call
  rw [hl]
  rfl

namespace Accounted

variable {f : Factory φ} {stream : Feed} {inputs : List String} {trace : List (Nat × Event φ)} {s s' : Session φ}

private theorem start (f : Factory φ) (stream : Feed) : Accounted f stream [] [] (start f) where
  factory_eq := rfl
  filter_eq := rfl
  size_eq := rfl
  feed_isSome h := nomatch h
  outcome_eq := rfl
  taken_eq := rfl
  indices_eq := rfl
  owned := nofun
  settles h := nomatch h

/-- More events of the lexer with the number `n`, and what they tell of it and of the feed. -/
private theorem extend (a : Accounted f stream inputs trace s) {inputs' : List String} {n : Nat} {new : List (Event φ)}
    (hfactory : s'.factory = s.factory) (hfilter : s'.filter = s.filter) (hsize : s'.lexers.size = inputs'.length)
    (hn : n < inputs'.length) (hle : inputs.length ≤ inputs'.length)
    (hothers : ∀ m : Nat, m ≠ n → inputs'[m]? = inputs[m]? ∧ s'.lexers[m]? = s.lexers[m]?)
    (hsome : ∀ (m : Nat) (l : Lexer φ), s'.lexers[m]? = some (some l) → s'.feed.isSome = true)
    (houtcome : (s'.feed.getD stream).outcome = (s.feed.getD stream).outcome)
    (htaken : (s'.feed.getD stream).taken = (s.feed.getD stream).taken + new.countP Event.isPull)
    (hindices : new.filterMap Event.index? = List.range' (s.feed.getD stream).taken (new.countP Event.isPull))
    (hsettles : ∀ input, inputs'[n]? = some input →
      Settles stream.outcome ⟨input⟩ f.filter (own n trace ++ new) s'.lexers[n]?.join) :
    Accounted f stream inputs' (trace ++ new.map (n, ·)) s' := by
  have hcount : (new.map (n, ·)).countP (·.2.isPull) = new.countP Event.isPull := by
    rw [List.countP_map]
    rfl
  refine ⟨hfactory.trans a.factory_eq, hfilter.trans a.filter_eq, hsize, fun h => hsome _ _ h,
    houtcome.trans a.outcome_eq, ?_, ?_, ?_, fun {m input} hm => ?_⟩
  · rw [htaken, a.taken_eq, List.countP_append, hcount, Nat.add_assoc]
  · rw [List.filterMap_append, List.countP_append, a.indices_eq, hcount, ← List.range'_append_1, ← a.taken_eq,
      ← hindices, List.filterMap_map]
    rfl
  · intro x hx
    rcases List.mem_append.1 hx with hx | hx
    · exact Nat.lt_of_lt_of_le (a.owned x hx) hle
    · obtain ⟨e, -, rfl⟩ := List.mem_map.1 hx
      exact hn
  · by_cases hmn : m = n
    · rw [hmn, own_append_self]
      exact hsettles input (hmn ▸ hm)
    · obtain ⟨hi, hl⟩ := hothers m hmn
      rw [own_append_of_ne hmn, hl]
      exact a.settles (hi ▸ hm)

/-- A lexer that is lent what it has in common with others goes on with its account. -/
private theorem lent (a : Accounted f stream inputs trace s) (shared : f.shared = true) {n : Nat} {l : Lexer φ}
    (hl : s.lexers[n]? = some (some l)) :
    ∃ input, inputs[n]? = some input ∧
      Lexer.Tracks stream.outcome ⟨input⟩ f.filter (own n trace) (s.feed.getD stream).taken
        { l with intake := s.lend l.intake } := by
  obtain ⟨hn, -⟩ := Array.getElem?_eq_some_iff.1 hl
  have hn' : n < inputs.length := by rw [← a.size_eq]; exact hn
  obtain ⟨feed, hfeed⟩ := Option.isSome_iff_exists.1 (a.feed_isSome hl)
  obtain ⟨acc, bal⟩ : Settles stream.outcome ⟨inputs[n]⟩ f.filter (own n trace) (some l) := by
    have h := a.settles (List.getElem?_eq_getElem hn')
    rwa [hl] at h
  -- A filter without a state is lent as it was, and the feed as far as any lexer read it.
  have hlend : s.lend l.intake = { l.intake with common := f.filter, feed, record := [] } := by
    unfold lend
    rw [a.filter_eq, a.factory_eq, shared, hfeed]
    rfl
  have houtcome : feed.outcome = stream.outcome := by
    have h := a.outcome_eq
    rwa [hfeed] at h
  have hnil : own n trace ++ [] = own n trace := List.append_nil _
  refine ⟨inputs[n], List.getElem?_eq_getElem hn', ?_, ?_, rfl, ?_⟩
  · rw [hlend]
    change Intake.Account _ _ _ (own n trace ++ []) _
    rw [hnil]
    refine ⟨acc.source_eq, houtcome, rfl, ?_, acc.fair, acc.exhausted_eq⟩
    rw [← acc.filter_eq]
    exact Intake.filter_congr acc.common_eq.symm rfl
  · rw [hlend]
    change Balanced _ (own n trace ++ []) _ _
    rw [hnil]
    exact bal
  · rw [hlend, hfeed]
    rfl

private theorem tracked (a : Accounted f stream inputs trace s) (shared : f.shared = true)
    (stateless : ∀ p : Option φ, Judge.Stateless p) {n : Nat} {l : Lexer φ} (hl : s.lexers[n]? = some (some l))
    (patience : Nat) (c : Call φ) :
    let (r, l') := ({ l with intake := s.lend l.intake } : Lexer φ).call patience c
    (∃ input, inputs[n]? = some input ∧
        Lexer.Tracks stream.outcome ⟨input⟩ f.filter (own n trace) (s.feed.getD stream).taken l') ∧
      ((∀ h m, .delivered h m ∈ l'.events → h.Candid) → l'.events.filterMap Event.lost? = [] ∨
        ∃ g, r = .error (.failed g) ∧ l'.events.filterMap Event.lost? = [g]) := by
  obtain ⟨input, hinput, tr⟩ := a.lent shared hl
  obtain ⟨tr', hlost⟩ := tr.call stateless rfl patience c
  exact ⟨⟨input, hinput, tr'⟩, hlost⟩

/-- What is taken back with the intake `i`, which recorded the events `new`. -/
private theorem returned (a : Accounted f stream inputs trace s) (shared : f.shared = true) {i : Intake φ}
    {new : List (Event φ)} (hc : i.common = f.filter) (ho : i.feed.outcome = stream.outcome)
    (ht : i.feed.taken = (s.feed.getD stream).taken + new.countP Event.isPull) :
    (s.takeBack i).filter = s.filter ∧ (s.takeBack i).feed.isSome = true ∧
      ((s.takeBack i).feed.getD stream).outcome = (s.feed.getD stream).outcome ∧
      ((s.takeBack i).feed.getD stream).taken = (s.feed.getD stream).taken + new.countP Event.isPull := by
  have hfeed : (s.takeBack i).feed = some i.feed := by
    unfold takeBack
    rw [a.factory_eq, shared]
    rfl
  rw [hfeed]
  exact ⟨hc.trans a.filter_eq.symm, rfl, ho.trans a.outcome_eq.symm, ht⟩

private theorem call (a : Accounted f stream inputs trace s) (shared : f.shared = true)
    (stateless : ∀ p : Option φ, Judge.Stateless p) (patience n : Nat) (c : Call φ) :
    Accounted f stream inputs (trace ++ (s.call patience n c).1.events.map (n, ·)) (s.call patience n c).2 ∧
      ((s.call patience n c).1.Candid → (s.call patience n c).1.LostOnly) := by
  cases hl : s.lexers[n]?.join with
  | none =>
    have hcall : s.call patience n c = s.reply (.ok .done) none [] := by
      unfold Session.call
      rw [hl]
    rw [hcall]
    exact ⟨by simpa [reply] using a, fun _ => .inl rfl⟩
  | some l =>
    have hl : s.lexers[n]? = some (some l) := Option.join_eq_some_iff.1 hl
    obtain ⟨hn, -⟩ := Array.getElem?_eq_some_iff.1 hl
    have htracked := a.tracked shared stateless hl patience c
    have hcall := call_of_some hl patience c
    rcases hc : ({ l with intake := s.lend l.intake } : Lexer φ).call patience c with ⟨r, l'⟩
    rw [hc] at htracked hcall
    obtain ⟨⟨input, hinput, tr'⟩, hlost⟩ := htracked
    obtain ⟨hfilter, hsome, houtcome, htaken⟩ :=
      a.returned shared tr'.account.common_eq tr'.account.outcome_eq tr'.taken_eq
    rw [hcall]
    refine ⟨a.extend rfl hfilter ?_ ?_ (Nat.le_refl _) (fun m hm => ⟨rfl, ?_⟩) (fun _ _ _ => hsome) houtcome htaken
      tr'.indices_eq (fun input' hinput' => ?_), hlost⟩
    · exact Array.size_setIfInBounds.trans a.size_eq
    · rw [← a.size_eq]
      exact hn
    · exact Array.getElem?_setIfInBounds_ne (Ne.symm hm)
    · obtain rfl : input = input' := Option.some.inj (hinput.symm.trans hinput')
      change Settles _ _ _ _ (s.lexers.setIfInBounds n (some l'))[n]?.join
      rw [Array.getElem?_setIfInBounds_self_of_lt hn]
      exact ⟨tr'.account, tr'.balanced⟩

/-- The next number is given to `o`, whose events are `new`. -/
private theorem grow (a : Accounted f stream inputs trace s) {input : String} {o : Option (Lexer φ)}
    {new : List (Event φ)} (hfactory : s'.factory = s.factory) (hfilter : s'.filter = s.filter)
    (hlexers : s'.lexers = s.lexers.push o) (hsome : s.feed.isSome = true ∨ o.isSome = true → s'.feed.isSome = true)
    (houtcome : (s'.feed.getD stream).outcome = (s.feed.getD stream).outcome)
    (htaken : (s'.feed.getD stream).taken = (s.feed.getD stream).taken + new.countP Event.isPull)
    (hindices : new.filterMap Event.index? = List.range' (s.feed.getD stream).taken (new.countP Event.isPull))
    (hsettles : Settles stream.outcome ⟨input⟩ f.filter new o) :
    Accounted f stream (inputs ++ [input]) (trace ++ new.map (s.lexers.size, ·)) s' := by
  have hsize : s.lexers.size < (inputs ++ [input]).length := by
    rw [List.length_append, a.size_eq]
    exact Nat.lt_succ_self _
  refine a.extend hfactory hfilter ?_ hsize ?_ (fun m hm => ⟨?_, ?_⟩) (fun m l hl => ?_) houtcome htaken hindices
    fun input' hinput => ?_
  · rw [hlexers, Array.size_push, a.size_eq, List.length_append]
    rfl
  · rw [List.length_append]
    exact Nat.le_add_right _ _
  · rw [a.size_eq] at hm
    by_cases hlt : m < inputs.length
    · exact List.getElem?_append_left hlt
    · rw [List.getElem?_eq_none (by rw [List.length_append, List.length_singleton]; omega),
        List.getElem?_eq_none (by omega)]
  · rw [hlexers, Array.getElem?_push, if_neg hm]
  · rw [hlexers, Array.getElem?_push] at hl
    split at hl
    · rw [Option.some.inj hl] at hsome
      exact hsome (.inr rfl)
    · exact hsome (.inl (a.feed_isSome hl))
  · rw [a.size_eq, List.getElem?_append_right (Nat.le_refl _), Nat.sub_self] at hinput
    obtain rfl : input = input' := Option.some.inj hinput
    have hown : own s.lexers.size trace = [] := own_eq_nil fun x hx => by
      have h := a.owned x hx
      rw [a.size_eq]
      omega
    rw [hown, hlexers, Array.getElem?_push, if_pos rfl]
    exact hsettles

private theorem supply_eq (a : Accounted f stream inputs trace s)
    (one : ∀ input feed, f.tokenizer input = .ok feed → feed = stream) {input : String} {feed : Feed}
    (h : s.supply input = .ok feed) : feed = s.feed.getD stream := by
  unfold supply at h
  cases hf : s.feed with
  | some feed' =>
    rw [hf] at h
    exact (Except.ok.inj h).symm
  | none =>
    rw [hf, a.factory_eq] at h
    exact one input feed h

private theorem lex (a : Accounted f stream inputs trace s) (shared : f.shared = true)
    (one : ∀ input feed, f.tokenizer input = .ok feed → feed = stream)
    (stateless : ∀ p : Option φ, Judge.Stateless p) (patience : Nat) (input : String) :
    Accounted f stream (inputs ++ [input]) (trace ++ (s.lex patience input).1.events.map (s.lexers.size, ·))
        (s.lex patience input).2 ∧
      (s.lex patience input).1.LostOnly := by
  cases hsupply : s.supply input with
  | error g =>
    have hlex : s.lex patience input = (s.add none).reply (.error (.failed g)) none [] := by
      unfold Session.lex
      rw [hsupply]
    rw [hlex]
    refine ⟨a.grow rfl rfl rfl (fun h => ?_) rfl rfl rfl ⟨AllFair.nil, rfl, rfl⟩, .inl rfl⟩
    exact h.resolve_right Bool.false_ne_true
  | ok feed =>
    obtain rfl := a.supply_eq one hsupply
    have hcreate := Lexer.create_tracks stateless patience input (s.feed.getD stream) s.filter s.factory.handler
    rw [a.outcome_eq, a.filter_eq] at hcreate
    rcases hc : Lexer.create patience { source := ⟨input⟩, feed := s.feed.getD stream, common := f.filter }
      s.factory.handler with ⟨r, i⟩
    rw [hc] at hcreate
    cases r with
    | error e =>
      have hlex : s.lex patience input = ((s.takeBack i).add none).reply (.error e) none i.record := by
        unfold Session.lex
        rw [hsupply]
        simp only [a.filter_eq, hc]
      obtain ⟨acc, harrived, hleft, hindices, htaken, hlost⟩ := hcreate
      obtain ⟨hfilter, hsome, houtcome, htaken⟩ := a.returned shared acc.common_eq acc.outcome_eq htaken
      rw [hlex]
      exact ⟨a.grow rfl hfilter rfl (fun _ => hsome) houtcome htaken hindices ⟨acc.fair, harrived, hleft⟩,
        hlost.result⟩
    | ok l =>
      have hlex : s.lex patience input = ((s.takeBack i).add (some l)).reply (.ok .done) (some l) i.record := by
        unfold Session.lex
        rw [hsupply]
        simp only [a.filter_eq, hc]
      obtain ⟨rfl, tr, hlost⟩ := hcreate
      obtain ⟨hfilter, hsome, houtcome, htaken⟩ :=
        a.returned shared tr.account.common_eq tr.account.outcome_eq tr.taken_eq
      rw [hlex]
      refine ⟨a.grow rfl hfilter rfl (fun _ => hsome) houtcome htaken tr.indices_eq ?_, .inl hlost⟩
      exact ⟨tr.account, tr.balanced⟩

private theorem step (a : Accounted f stream inputs trace s) (shared : f.shared = true)
    (one : ∀ input feed, f.tokenizer input = .ok feed → feed = stream)
    (stateless : ∀ p : Option φ, Judge.Stateless p) (patience : Nat) (step : Step φ) :
    Accounted f stream (inputs ++ step.input?.toList)
        (trace ++ (s.step patience step).1.events.map (s.subject step, ·)) (s.step patience step).2 ∧
      ((s.step patience step).1.Candid → (s.step patience step).1.LostOnly) := by
  cases step with
  | lex input => exact (a.lex shared one stateless patience input).imp_right fun h _ => h
  | call n c =>
    rw [show inputs ++ (Step.call n c : Step φ).input?.toList = inputs from List.append_nil _]
    exact a.call shared stateless patience n c

theorem run (a : Accounted f stream inputs trace s) (shared : f.shared = true)
    (one : ∀ input feed, f.tokenizer input = .ok feed → feed = stream)
    (stateless : ∀ p : Option φ, Judge.Stateless p) (patience : Nat) (steps : List (Step φ)) :
    Accounted f stream (inputs ++ steps.filterMap Step.input?) (trace ++ s.trace patience steps)
        (s.run patience steps).2 ∧
      ∀ r ∈ (s.run patience steps).1, r.Candid → r.LostOnly := by
  -- Steps are taken from the front of the run, while the accounts grow at their end.
  induction steps generalizing inputs trace s with
  | nil =>
    have htrace : trace ++ s.trace patience [] = trace := List.append_nil trace
    rw [htrace, List.filterMap_nil, List.append_nil]
    exact ⟨a, fun r hr => absurd hr List.not_mem_nil⟩
  | cons step steps ih =>
    have hinputs : (step :: steps).filterMap Step.input? = step.input?.toList ++ steps.filterMap Step.input? := by
      rw [List.filterMap_cons]
      cases step.input? <;> rfl
    obtain ⟨a', hr⟩ := a.step shared one stateless patience step
    obtain ⟨a'', hrs⟩ := ih a'
    rw [run_cons, trace_cons, hinputs, ← List.append_assoc, ← List.append_assoc, List.forall_mem_cons]
    exact ⟨a'', hr, hrs⟩

/-- A lexer that is not at its end goes on behind the last pull, whoever made it. -/
private theorem goes_on (a : Accounted f stream inputs trace s) (shared : f.shared = true)
    (stateless : ∀ p : Option φ, Judge.Stateless p) {patience n : Nat} {l : Lexer φ}
    (hl : s.lexers[n]? = some (some l)) (hx : l.intake.exhausted = false) (hp : 0 < patience) :
    ((s.call patience n .advance).1.events.filterMap Event.index?).head? =
      some (stream.taken + trace.countP (·.2.isPull)) := by
  obtain ⟨input, -, tr⟩ := a.lent shared hl
  have hstart : (s.lend l.intake).feed.taken = (s.feed.getD stream).taken := tr.taken_eq
  have htracked := a.tracked shared stateless hl patience .advance
  have hcall := call_of_some hl patience .advance
  have hlt : (s.feed.getD stream).taken <
      (({ l with intake := s.lend l.intake } : Lexer φ).call patience .advance).2.intake.feed.taken := by
    rw [← hstart]
    exact (Lexer.advance_advances patience { l with intake := s.lend l.intake }).taken_lt hp hx
  rcases hc : ({ l with intake := s.lend l.intake } : Lexer φ).call patience .advance with ⟨r, l'⟩
  rw [hc] at htracked hcall hlt
  obtain ⟨⟨_, -, tr'⟩, -⟩ := htracked
  obtain ⟨k, hk⟩ : ∃ k, l'.events.countP Event.isPull = k + 1 := by
    refine Nat.exists_eq_succ_of_ne_zero fun h0 => ?_
    have htaken := tr'.taken_eq
    rw [h0, Nat.add_zero] at htaken
    exact Nat.ne_of_lt hlt htaken.symm
  rw [hcall]
  change (l'.events.filterMap Event.index?).head? = _
  rw [tr'.indices_eq, hk, List.range'_succ, List.head?_cons, a.taken_eq]

end Accounted

theorem lexers_step (s : Session φ) (patience : Nat) (step : Step φ) {m : Nat} (hm : m ≠ s.subject step) :
    (s.step patience step).2.lexers[m]? = s.lexers[m]? := by
  cases step with
  | lex input =>
    have hm : m ≠ s.lexers.size := hm
    have hpush : ∀ (s' : Session φ) (o : Option (Lexer φ)), s'.lexers = s.lexers →
        (s'.add o).lexers[m]? = s.lexers[m]? := by
      intro s' o hs
      unfold add
      rw [hs, Array.getElem?_push, if_neg hm]
    change (s.lex patience input).2.lexers[m]? = _
    unfold lex
    cases s.supply input with
    | error g => exact hpush s none rfl
    | ok feed =>
      dsimp only
      rcases Lexer.create patience { source := ⟨input⟩, feed, common := s.filter } s.factory.handler with ⟨e | l, i⟩
      · exact hpush (s.takeBack i) none rfl
      · exact hpush (s.takeBack i) (some l) rfl
  | call n c =>
    change (s.call patience n c).2.lexers[m]? = _
    unfold call
    cases s.lexers[n]?.join with
    | none => rfl
    | some l => exact Array.getElem?_setIfInBounds_ne (Ne.symm hm)

private theorem call_leaves {s : Session φ} {n : Nat} {l : Lexer φ} (hl : s.lexers[n]? = some (some l)) (patience : Nat)
    (c : Call φ) : Leaves l c (s.call patience n c).1 := by
  have hleaves := Lexer.call_leaves patience { l with intake := s.lend l.intake } c
  rw [call_of_some hl]
  exact hleaves

/-- Lexers that share a feed, with filters without a state, pull its items in order, each of them once. Every item is
settled by the lexer that pulled it, as the item, its text and its filter tell; what was lost was reported, unless a
handler caught it. Every token that came into a lexer was given up once, in order, or is current. A call gives up what
it returns, and changes no other lexer; a lexer that did not end goes on behind the last pull. -/
theorem sharing_loses_nothing {f : Factory φ} {stream : Feed} (shared : f.shared = true)
    (one : ∀ input feed, f.tokenizer input = .ok feed → feed = stream)
    (stateless : ∀ p : Option φ, Judge.Stateless p) (patience : Nat) (steps : List (Step φ)) :
    let replies := ((start f).run patience steps).1
    let s := ((start f).run patience steps).2
    let trace := (start f).trace patience steps
    let inputs := steps.filterMap Step.input?
    let pulls := trace.countP (·.2.isPull)
    trace.filterMap (·.2.index?) = List.range' stream.taken pulls ∧
      (∀ before n e after, trace = before ++ (n, e) :: after →
        ∃ input, inputs[n]? = some input ∧ e.Fair stream.outcome ⟨input⟩ (inForce f.filter (own n before))) ∧
      (∀ r ∈ replies, r.Candid → r.LostOnly) ∧
      (∀ n input, inputs[n]? = some input → Keeps ⟨input⟩ (own n trace) s.lexers[n]?.join) ∧
      (∀ n l, s.lexers[n]? = some (some l) → ∀ c, Leaves l c (s.call patience n c).1) ∧
      (∀ step m, m ≠ s.subject step → (s.step patience step).2.lexers[m]? = s.lexers[m]?) ∧
      ∀ n l, s.lexers[n]? = some (some l) → l.intake.exhausted = false → 0 < patience →
        ((s.call patience n .advance).1.events.filterMap Event.index?).head? = some (stream.taken + pulls) := by
  obtain ⟨a, hlost⟩ := (Accounted.start f stream).run shared one stateless patience steps
  rw [List.nil_append, List.nil_append] at a
  refine ⟨a.indices_eq, fun before n e after htrace => ?_, hlost, fun n input hinput => ?_, fun n l hl c => ?_,
    fun step m hm => lexers_step _ patience step hm, fun n l hl hx hp => a.goes_on shared stateless hl hx hp⟩
  · have hn : n < (steps.filterMap Step.input?).length := a.owned (n, e) (by rw [htrace]; simp)
    have hfair := (a.settles (List.getElem?_eq_getElem hn)).fair
    refine ⟨_, List.getElem?_eq_getElem hn, hfair (own n before) e (own n after) ?_⟩
    rw [htrace, own_append, own_cons_self]
  · exact (a.settles hinput).keeps
  · exact call_leaves hl patience c

/-- Two lexers and an attempt that fails: one lexer ends at an item that is no token, and the other goes on. -/
theorem sharing_loses_nothing_of_three :
    let word (value : String) (index : Nat) : Pull := .item (.token ⟨"word", value, index, none⟩)
    let stream := Feed.ofList [word "ab" 0, .fail (.raised "lost"), .item (.token ⟨"blank", " ", 2, none⟩), word "cd" 3,
      .item .nothing, word "ef" 6]
    let filter : StatelessFilter := ⟨Filter.ofKind "groups" (.groups ["word"]), rfl⟩
    let f : Factory StatelessFilter := { tokenizer := fun _ => .ok stream, shared := true, filter := some filter }
    let steps : List (Step StatelessFilter) := [.lex "ab cd ef", .lex "ab cd ef", .lex "ab cd ef", .call 0 .advance,
      .call 2 .advance]
    let replies := ((start f).run 5 steps).1
    replies.map (Except.isOk ·.result) = [true, false, true, true, true] ∧
      ((start f).trace 5 steps).filterMap (·.2.index?) = [0, 1, 2, 3, 4, 5] ∧ ∀ r ∈ replies, r.LostOnly := by
  intro word stream filter f steps replies
  have one : ∀ input feed, f.tokenizer input = .ok feed → feed = stream := by
    intro input feed h
    exact (Except.ok.inj h).symm
  have stateless : ∀ p : Option StatelessFilter, Judge.Stateless p := by
    rintro p g - view t
    exact g.judge_eq view t
  have h := sharing_loses_nothing rfl one stateless 5 steps
  have hpulls : ((start f).trace 5 steps).countP (·.2.isPull) = 6 := by decide +kernel
  have hnobody : replies.all (·.events.all fun e => !e.isRemark) = true := by decide +kernel
  refine ⟨by decide +kernel, h.1.trans ?_, fun r hr => h.2.2.1 r hr fun g m hm => ?_⟩
  · rw [hpulls]
    rfl
  · cases List.all_eq_true.1 (List.all_eq_true.1 hnobody r hr) _ hm

end Session

end Lookahead
