import Lookahead.Proofs.Stateless

/-!
# Accounts of a lexer

The events of a lexer, from its creation on, tell what became of each item that it pulled and of each token that was
current: `Intake.Account` is the invariant between these events and the lexer, for filters without a state. It is kept
by every operation (`Lexer.tracks_carries`), together with the position in the feed; and an operation loses at most one
item, with which it halts.
-/

namespace Lookahead

namespace Event

variable {φ : Type}

/-- The position in the feed of an item that was pulled. -/
def index? : Event φ → Option Nat
  | pulled k _ => some k
  | _ => none

/-- The token of an item that was kept. -/
def arrived? : Event φ → Option Token
  | pulled _ fate => fate.token?
  | _ => none

/-- The token that ceased to be current. -/
def left? : Event φ → Option Token
  | consumed t => some t
  | discarded t => some t
  | _ => none

/-- The failure with which an item was lost. -/
def lost? : Event φ → Option Failure
  | pulled _ fate => fate.failure?
  | _ => none

/-- The end was pulled. -/
def isEnding : Event φ → Bool
  | pulled _ fate => fate.isEnd
  | _ => false

theorem left?_of_isDraw {e : Event φ} (h : e.isDraw = true) : e.left? = none := by
  revert h
  cases e <;> simp [isDraw, left?]

variable [Judge φ]

/-- What the event tells of an item or a token is so, in a lexer over the text `s` with the filter `p`. -/
def Fair (outcome : Nat → Pull) (s : Source) (p : Option φ) : Event φ → Prop
  | pulled k fate => fate = (outcome k).fate s p
  | discarded t => Judge.verdict p t = .ok false
  | _ => True

end Event

/-- The filter in force after some events, in order. -/
def inForce {φ : Type} (f₀ : Option φ) (h : List (Event φ)) : Option φ :=
  (h.filterMap Event.installed?).getLast?.getD f₀

section InForce

variable {φ : Type} {f₀ : Option φ} {h new : List (Event φ)}

theorem inForce_append (hnew : ∀ e ∈ new, e.installed? = none) : inForce f₀ (h ++ new) = inForce f₀ h := by
  unfold inForce
  rw [List.filterMap_append, List.filterMap_eq_nil_iff.2 hnew, List.append_nil]

theorem inForce_filterSet (p : Option φ) : inForce f₀ (h ++ [.filterSet p]) = p := by
  unfold inForce
  rw [List.filterMap_append, List.getLast?_append]
  rfl

end InForce

/-- All events were fair when they happened. -/
def AllFair {φ : Type} [Judge φ] (outcome : Nat → Pull) (s : Source) (f₀ : Option φ) (h : List (Event φ)) : Prop :=
  ∀ before e after, h = before ++ e :: after → e.Fair outcome s (inForce f₀ before)

section AllFair

variable {φ : Type} [Judge φ] {outcome : Nat → Pull} {s : Source} {f₀ : Option φ} {h new : List (Event φ)}

theorem AllFair.nil : AllFair outcome s f₀ [] := by
  intro before e after heq
  cases before <;> cases heq

theorem AllFair.concat (hh : AllFair outcome s f₀ h) {e : Event φ} (he : e.Fair outcome s (inForce f₀ h)) :
    AllFair outcome s f₀ (h ++ [e]) := by
  intro before e' after heq
  -- The event is the last of all, or it is one of those before.
  rcases List.eq_nil_or_concat after with rfl | ⟨after', x, rfl⟩
  · obtain ⟨rfl, hee⟩ := List.append_inj' heq rfl
    obtain rfl := (List.cons.inj hee).1
    exact he
  · rw [List.concat_eq_append, ← List.cons_append, ← List.append_assoc] at heq
    exact hh before e' after' (List.append_inj' heq rfl).1

/-- While no filter is installed, the filter in force is the same. -/
theorem AllFair.append (hh : AllFair outcome s f₀ h)
    (hnew : ∀ e ∈ new, e.installed? = none ∧ e.Fair outcome s (inForce f₀ h)) : AllFair outcome s f₀ (h ++ new) := by
  induction new generalizing h with
  | nil => simpa using hh
  | cons e new ih =>
    rw [List.forall_mem_cons] at hnew
    have hforce : inForce f₀ (h ++ [e]) = inForce f₀ h := inForce_append (by simpa using hnew.1.1)
    have hrest := ih (hh.concat hnew.1.2) (by rw [hforce]; exact hnew.2)
    rwa [List.append_assoc] at hrest

end AllFair

namespace Intake

variable {φ : Type} [Judge φ]

/-- The events `h` of a lexer over the text `s`, in order, which began with the filter `f₀`, led to the intake `i`. -/
structure Account (outcome : Nat → Pull) (s : Source) (f₀ : Option φ) (h : List (Event φ)) (i : Intake φ) : Prop where
  source_eq : i.source = s
  outcome_eq : i.feed.outcome = outcome
  common_eq : i.common = f₀
  filter_eq : i.filter = inForce f₀ h
  fair : AllFair outcome s f₀ h
  exhausted_eq : i.exhausted = h.any Event.isEnding

variable {outcome : Nat → Pull} {s : Source} {f₀ : Option φ} {h : List (Event φ)} {i j : Intake φ}
  {view : Option View}

theorem Account.append (a : Account outcome s f₀ h i) {new : List (Event φ)} (hs : j.source = i.source)
    (ho : j.feed.outcome = i.feed.outcome) (hc : j.common = i.common) (hf : j.filter = i.filter)
    (hnew : ∀ e ∈ new, e.installed? = none ∧ e.Fair outcome s i.filter)
    (hx : j.exhausted = (i.exhausted || new.any Event.isEnding)) : Account outcome s f₀ (h ++ new) j where
  source_eq := hs.trans a.source_eq
  outcome_eq := ho.trans a.outcome_eq
  common_eq := hc.trans a.common_eq
  filter_eq := by rw [hf, a.filter_eq, inForce_append fun e he => (hnew e he).1]
  fair := a.fair.append (by rw [← a.filter_eq]; exact hnew)
  exhausted_eq := by rw [hx, a.exhausted_eq, List.any_append]

theorem Account.note (a : Account outcome s f₀ h i) {e : Event φ} (hi : e.installed? = none)
    (he : e.Fair outcome s i.filter) (hx : e.isEnding = false) : Account outcome s f₀ (h ++ [e]) (i.note e) :=
  a.append rfl rfl rfl rfl (by simpa using ⟨hi, he⟩) (by simp [hx])

/-- The record of a pull is an account of one item. -/
private theorem Draws.account {fate : Fate} (d : Draws view i fate j) (hx : i.exhausted = false)
    (stateless : Judge.Stateless i.filter) (a : Account outcome s f₀ h i) :
    ∃ new, j.events = i.events ++ new ∧ (∀ e ∈ new, e.isDraw = true) ∧ Account outcome s f₀ (h ++ new) j ∧
      new.filterMap Event.index? = [i.feed.taken] ∧ new.countP Event.isPull = 1 ∧
      new.filterMap Event.arrived? = fate.token?.toList ∧ new.filterMap Event.lost? = fate.failure?.toList := by
  obtain ⟨asked, ha, hr⟩ := d.record_eq
  obtain ⟨hfate, hc, hact⟩ := d.of_stateless stateless
  have hasked : ∀ {β : Type} (g : Event φ → Option β), (∀ f t v, g (.judged f t v) = none) →
      asked.reverse.filterMap g = [] := by
    intro β g hg
    rw [List.filterMap_eq_nil_iff]
    intro e he
    obtain ⟨f, t, v, rfl⟩ := ha e (List.mem_reverse.1 he)
    exact hg f t v
  have hcount : asked.reverse.countP Event.isPull = 0 := by
    rw [List.countP_eq_zero]
    intro e he
    obtain ⟨f, t, v, rfl⟩ := ha e (List.mem_reverse.1 he)
    simp [Event.isPull]
  have hending : asked.reverse.any Event.isEnding = false := by
    rw [List.any_eq_false]
    intro e he
    obtain ⟨f, t, v, rfl⟩ := ha e (List.mem_reverse.1 he)
    simp [Event.isEnding]
  let tail : List (Event φ) := if fate = .ended then [.reachedEnd i.source.size] else []
  have hmem : ∀ e ∈ asked.reverse ++ .pulled i.feed.taken fate :: tail,
      (∃ f t v, e = .judged f t v) ∨ e = .pulled i.feed.taken fate ∨ e = .reachedEnd i.source.size := by
    intro e he
    rcases List.mem_append.1 he with he | he
    · exact .inl (ha e (List.mem_reverse.1 he))
    · rcases List.mem_cons.1 he with rfl | he
      · exact .inr (.inl rfl)
      · cases fate <;> simp_all [tail]
  have hpulled : (Event.pulled i.feed.taken fate : Event φ).Fair outcome s i.filter := by
    rw [← a.outcome_eq, ← a.source_eq]
    exact hfate
  refine ⟨asked.reverse ++ .pulled i.feed.taken fate :: tail, ?_, fun e he => ?_,
    a.append d.source_eq ?_ hc (filter_congr hc hact) (fun e he => ?_) ?_, ?_, ?_, ?_, ?_⟩
  · unfold events
    rw [hr]
    cases fate <;> simp [tail]
  · rcases hmem e he with ⟨f, t, v, rfl⟩ | rfl | rfl <;> rfl
  · rw [d.feed_eq]
    rfl
  · rcases hmem e he with ⟨f, t, v, rfl⟩ | rfl | rfl
    · exact ⟨rfl, trivial⟩
    · exact ⟨rfl, hpulled⟩
    · exact ⟨rfl, trivial⟩
  · rw [d.exhausted_eq hx, hx, List.any_append, hending]
    cases fate <;> rfl
  · rw [List.filterMap_append, hasked _ fun _ _ _ => rfl]
    cases fate <;> rfl
  · rw [List.countP_append, hcount]
    cases fate <;> rfl
  · rw [List.filterMap_append, hasked _ fun _ _ _ => rfl]
    cases fate <;> rfl
  · rw [List.filterMap_append, hasked _ fun _ _ _ => rfl]
    cases fate <;> rfl

/-- What pulls up to a token that is kept tell: they are in the order of the feed, that token alone came in, and an item
was lost only if this is why there is no token. -/
theorem Fetches.account {n : Nat} {r : Except Halt Token} (hf : Fetches view n i r j)
    (stateless : ∀ p : Option φ, Judge.Stateless p) (a : Account outcome s f₀ h i) :
    ∃ new, j.events = i.events ++ new ∧ (∀ e ∈ new, e.isDraw = true) ∧ Account outcome s f₀ (h ++ new) j ∧
      new.filterMap Event.index? = List.range' i.feed.taken (new.countP Event.isPull) ∧
      j.feed.taken = i.feed.taken + new.countP Event.isPull ∧
      match r with
      | .ok t => new.filterMap Event.lost? = [] ∧
          if j.exhausted then t = .eof s ∧ new.filterMap Event.arrived? = [] else new.filterMap Event.arrived? = [t]
      | .error e => new.filterMap Event.arrived? = [] ∧
          (new.filterMap Event.lost? = [] ∨ ∃ f, e = .failed f ∧ new.filterMap Event.lost? = [f]) := by
  induction hf generalizing h with
  | exhausted hx =>
    refine ⟨[], by simp, by simp, by simpa using a, rfl, rfl, rfl, ?_⟩
    rw [if_pos hx]
    exact ⟨congrArg Token.eof a.source_eq, rfl⟩
  | impatient => exact ⟨[], by simp, by simp, by simpa using a, rfl, rfl, rfl, .inl rfl⟩
  | ended hx d =>
    obtain ⟨new, he, hd, ha, hi, hc, harrived, hlost⟩ := d.account hx (stateless _) a
    refine ⟨new, he, hd, ha, by rw [hi, hc]; rfl, by rw [d.feed_eq, hc]; rfl, hlost, ?_⟩
    rw [if_pos (by simpa using d.exhausted_eq hx)]
    exact ⟨by rw [eof, ha.source_eq], harrived⟩
  | lost hx d =>
    obtain ⟨new, he, hd, ha, hi, hc, harrived, hlost⟩ := d.account hx (stateless _) a
    exact ⟨new, he, hd, ha, by rw [hi, hc]; rfl, by rw [d.feed_eq, hc]; rfl, harrived, .inr ⟨_, rfl, hlost⟩⟩
  | kept hx d =>
    obtain ⟨new, he, hd, ha, hi, hc, harrived, hlost⟩ := d.account hx (stateless _) a
    refine ⟨new, he, hd, ha, by rw [hi, hc]; rfl, by rw [d.feed_eq, hc]; rfl, hlost, ?_⟩
    rw [if_neg (by simpa using d.exhausted_eq hx)]
    exact harrived
  | rejected hx d rest ih =>
    rename_i n i j k t r
    obtain ⟨new, he, hd, ha, hi, hc, harrived, hlost⟩ := d.account hx (stateless _) a
    -- No token came in with the first item, and it was not lost: the others tell what the result tells.
    obtain ⟨new', he', hd', ha', hi', ht', hr⟩ := ih ha
    have htaken : j.feed.taken = i.feed.taken + 1 := by rw [d.feed_eq]; rfl
    have harrived' : (new ++ new').filterMap Event.arrived? = new'.filterMap Event.arrived? := by
      rw [List.filterMap_append, harrived]
      rfl
    have hlost' : (new ++ new').filterMap Event.lost? = new'.filterMap Event.lost? := by
      rw [List.filterMap_append, hlost]
      rfl
    refine ⟨new ++ new', by rw [he', he, List.append_assoc], ?_, by rw [← List.append_assoc]; exact ha', ?_, ?_, ?_⟩
    · exact fun e he => (List.mem_append.1 he).elim (hd e) (hd' e)
    · rw [List.filterMap_append, List.countP_append, hi, hi', hc, htaken, ← List.range'_append_1]
      rfl
    · rw [ht', htaken, List.countP_append, hc, Nat.add_assoc]
    · rw [harrived', hlost']
      cases r <;> exact hr

end Intake

/-! ### Tokens that come and go -/

/-- The tokens that came in are those that were given up, in the same order, and then the current token; after the end,
the token at the end may have been given up any number of times. -/
def Balanced {φ : Type} (s : Source) (h : List (Event φ)) (exhausted : Bool) (current : Token) : Prop :=
  if exhausted then current = .eof s ∧
    ∃ n, h.filterMap Event.left? = h.filterMap Event.arrived? ++ List.replicate n (.eof s)
  else h.filterMap Event.arrived? = h.filterMap Event.left? ++ [current]

namespace Balanced

variable {φ : Type} {s : Source} {h new : List (Event φ)} {x x' : Bool} {t u : Token}

theorem append (b : Balanced s h x t) (hnew : ∀ e ∈ new, e.arrived? = none ∧ e.left? = none) :
    Balanced s (h ++ new) x t := by
  unfold Balanced at b ⊢
  rw [List.filterMap_append, List.filterMap_append, List.filterMap_eq_nil_iff.2 fun e he => (hnew e he).1,
    List.filterMap_eq_nil_iff.2 fun e he => (hnew e he).2, List.append_nil, List.append_nil]
  exact b

/-- The current token `t` is given up, and `u` comes in. -/
theorem step (b : Balanced s h x t) (hx : x = true → new = [] ∧ x' = true) (hleft : new.filterMap Event.left? = [])
    (harrived : if x' then u = .eof s ∧ new.filterMap Event.arrived? = [] else new.filterMap Event.arrived? = [u])
    {e : Event φ} (he : e.left? = some t) (he' : e.arrived? = none) : Balanced s (h ++ new ++ [e]) x' u := by
  have hl : (h ++ new ++ [e]).filterMap Event.left? = h.filterMap Event.left? ++ [t] := by
    rw [List.filterMap_append, List.filterMap_append, hleft, List.append_nil, List.filterMap_cons_some he]
    rfl
  have ha : (h ++ new ++ [e]).filterMap Event.arrived? =
      h.filterMap Event.arrived? ++ new.filterMap Event.arrived? := by
    rw [List.filterMap_append, List.filterMap_append, List.filterMap_cons_none he']
    exact List.append_nil _
  unfold Balanced at b ⊢
  rw [hl, ha]
  cases x with
  | true =>
    -- After the end nothing comes in, and the token at the end is given up once more.
    obtain ⟨rfl, rfl⟩ := hx rfl
    obtain ⟨rfl, n, hn⟩ := b
    refine ⟨harrived.1, n + 1, ?_⟩
    rw [hn, List.replicate_succ', List.filterMap_nil, List.append_nil, List.append_assoc]
  | false =>
    have b : h.filterMap Event.arrived? = h.filterMap Event.left? ++ [t] := b
    cases x' with
    | true => exact ⟨harrived.1, 0, by rw [harrived.2, b]; simp⟩
    | false =>
      have harrived : new.filterMap Event.arrived? = [u] := harrived
      change _ = _
      rw [harrived, b]

end Balanced

namespace Lexer

variable {φ : Type} [Judge φ]

/-- What the events `older ++ l.events` of the lexer `l` tell, where `older` happened before the record was begun, when
the feed was at the position `start`. -/
structure Tracks (outcome : Nat → Pull) (s : Source) (f₀ : Option φ) (older : List (Event φ)) (start : Nat)
    (l : Lexer φ) : Prop where
  account : l.intake.Account outcome s f₀ (older ++ l.events)
  balanced : Balanced s (older ++ l.events) l.intake.exhausted l.current
  indices_eq : l.events.filterMap Event.index? = List.range' start (l.events.countP Event.isPull)
  taken_eq : l.intake.feed.taken = start + l.events.countP Event.isPull

/-- At most one item was lost, and then the operation halted with its failure. -/
def LostOnly (e : Halt) (h : List (Event φ)) : Prop :=
  h.filterMap Event.lost? = [] ∨ ∃ f, e = .failed f ∧ h.filterMap Event.lost? = [f]

namespace Tracks

variable {outcome : Nat → Pull} {s : Source} {f₀ : Option φ} {older : List (Event φ)} {start : Nat} {l l' : Lexer φ}

private theorem append (tr : Tracks outcome s f₀ older start l) {new : List (Event φ)}
    (he : l'.events = l.events ++ new) (ha : l'.intake.Account outcome s f₀ (older ++ l.events ++ new))
    (hb : Balanced s (older ++ l.events ++ new) l'.intake.exhausted l'.current)
    (hi : new.filterMap Event.index? = List.range' l.intake.feed.taken (new.countP Event.isPull))
    (ht : l'.intake.feed.taken = l.intake.feed.taken + new.countP Event.isPull) :
    Tracks outcome s f₀ older start l' where
  account := by rwa [he, ← List.append_assoc]
  balanced := by rwa [he, ← List.append_assoc]
  indices_eq := by
    rw [he, List.filterMap_append, List.countP_append, hi, tr.indices_eq, tr.taken_eq, List.range'_append_1]
  taken_eq := by rw [he, ht, tr.taken_eq, List.countP_append, Nat.add_assoc]

/-- What tells of neither items, tokens nor filters changes nothing. -/
private theorem note (tr : Tracks outcome s f₀ older start l) {e : Event φ}
    (he : e.isRemark = true ∨ (∃ g, e = .handlerSet g) ∨ ∃ f t v, e = .judged f t v) (handler : Handler φ) :
    Tracks outcome s f₀ older start ⟨l.intake.note e, l.previous, l.current, handler⟩ ∧
      (l.note e).events.filterMap Event.lost? = l.events.filterMap Event.lost? := by
  have hevents : (l.note e).events = l.events ++ [e] := List.reverse_cons
  have hquiet : e.installed? = none ∧ e.Fair outcome s l.intake.filter ∧ e.isEnding = false ∧ e.index? = none ∧
      e.isPull = false ∧ e.arrived? = none ∧ e.left? = none ∧ e.lost? = none := by
    rcases he with he | ⟨g, rfl⟩ | ⟨f, t, v, rfl⟩
    · cases e with
      | expected => exact ⟨rfl, trivial, rfl, rfl, rfl, rfl, rfl, rfl⟩
      | delivered => exact ⟨rfl, trivial, rfl, rfl, rfl, rfl, rfl, rfl⟩
      | _ => cases he
    · exact ⟨rfl, trivial, rfl, rfl, rfl, rfl, rfl, rfl⟩
    · exact ⟨rfl, trivial, rfl, rfl, rfl, rfl, rfl, rfl⟩
  obtain ⟨hi, hfair, hx, hindex, hp, ha, hl, hlost⟩ := hquiet
  have hcount : [e].countP Event.isPull = 0 := by simp [hp]
  refine ⟨tr.append hevents (tr.account.note hi hfair hx) ?_ ?_ ?_, ?_⟩
  · exact tr.balanced.append (by simpa using ⟨ha, hl⟩)
  · rw [hcount, List.filterMap_cons_none hindex]
    rfl
  · rw [hcount]
    rfl
  · rw [hevents, List.filterMap_append, List.filterMap_cons_none hlost, List.filterMap_nil, List.append_nil]

/-- A fetch that gives a token, for which the current one is given up. -/
private theorem passed (tr : Tracks outcome s f₀ older start l) (stateless : ∀ p : Option φ, Judge.Stateless p)
    {view : Option View} {n : Nat} {j : Intake φ} {t : Token} (hf : Intake.Fetches view n l.intake (.ok t) j)
    {e : Event φ} (he : e.left? = some l.current) (hfair : e.Fair outcome s l.intake.filter) (previous : Option Token)
    (handler : Handler φ) :
    Tracks outcome s f₀ older start ⟨j.note e, previous, t, handler⟩ ∧
      (j.note e).events.filterMap Event.lost? = l.events.filterMap Event.lost? := by
  obtain ⟨new, hnew, hd, ha, hindex, htaken, hnone, harrived⟩ := hf.account stateless tr.account
  have hquiet : e.installed? = none ∧ e.isEnding = false ∧ e.index? = none ∧ e.isPull = false ∧ e.arrived? = none ∧
      e.lost? = none := by
    cases e with
    | consumed => exact ⟨rfl, rfl, rfl, rfl, rfl, rfl⟩
    | discarded => exact ⟨rfl, rfl, rfl, rfl, rfl, rfl⟩
    | _ => cases he
  obtain ⟨hi, hx, hinone, hp, hanone, hlnone⟩ := hquiet
  have hevents : (j.note e).events = l.events ++ (new ++ [e]) := by
    rw [← List.append_assoc, show l.events ++ new = j.events from hnew.symm]
    exact List.reverse_cons
  have hcount : (new ++ [e]).countP Event.isPull = new.countP Event.isPull := by
    rw [List.countP_append]
    simp [hp]
  have hfair' : e.Fair outcome s j.filter := by
    obtain ⟨hc, hact⟩ := hf.of_stateless (stateless _)
    rwa [Intake.filter_congr hc hact]
  refine ⟨tr.append hevents ?_ ?_ ?_ ?_, ?_⟩
  · rw [← List.append_assoc]
    exact ha.note hi hfair' hx
  · rw [← List.append_assoc]
    refine tr.balanced.step (fun hopen => ?_) ?_ harrived he hanone
    · obtain ⟨-, rfl⟩ := hf.eq_of_exhausted hopen
      exact ⟨List.append_right_eq_self.1 hnew.symm, hopen⟩
    · exact List.filterMap_eq_nil_iff.2 fun e he => Event.left?_of_isDraw (hd e he)
  · rw [hcount, List.filterMap_append, List.filterMap_cons_none hinone, hindex]
    exact List.append_nil _
  · rw [hcount]
    exact htaken
  · rw [hevents, List.filterMap_append, List.filterMap_append, hnone, List.filterMap_cons_none hlnone]
    exact List.append_nil _

private theorem halted (tr : Tracks outcome s f₀ older start l) (stateless : ∀ p : Option φ, Judge.Stateless p)
    {view : Option View} {n : Nat} {j : Intake φ} {e : Halt} (hf : Intake.Fetches view n l.intake (.error e) j) :
    Tracks outcome s f₀ older start { l with intake := j } ∧
      (l.events.filterMap Event.lost? = [] → LostOnly e j.events) := by
  obtain ⟨new, hnew, hd, ha, hindex, htaken, harrived, hnone⟩ := hf.account stateless tr.account
  have hopen : l.intake.exhausted = j.exhausted := by
    rw [hf.exhausted_of_error, ← Bool.not_eq_true]
    intro hx
    cases (hf.eq_of_exhausted hx).1
  refine ⟨tr.append hnew ha ?_ hindex htaken, ?_⟩
  · change Balanced s _ j.exhausted l.current
    rw [← hopen]
    refine tr.balanced.append fun e he => ⟨?_, Event.left?_of_isDraw (hd e he)⟩
    exact List.filterMap_eq_nil_iff.1 harrived e he
  · intro hlost
    unfold LostOnly
    rw [hnew, List.filterMap_append, show l.intake.events.filterMap Event.lost? = [] from hlost]
    exact hnone

private theorem refiltered (tr : Tracks outcome s f₀ older start l) (p : Option φ) :
    Tracks outcome s f₀ older start { l with intake := l.refiltered p } ∧
      (l.refiltered p).events.filterMap Event.lost? = l.events.filterMap Event.lost? := by
  have hevents : (l.refiltered p).events = l.events ++ [.filterSet p] := List.reverse_cons
  have hcount : [Event.filterSet p].countP Event.isPull = 0 := by simp [Event.isPull]
  refine ⟨tr.append hevents ?_ (tr.balanced.append (by simp [Event.arrived?, Event.left?])) ?_ ?_, ?_⟩
  · refine ⟨tr.account.source_eq, tr.account.outcome_eq, tr.account.common_eq, ?_, tr.account.fair.concat trivial, ?_⟩
    · rw [inForce_filterSet, refiltered_filter]
    · rw [List.any_append, ← tr.account.exhausted_eq]
      exact (Bool.or_false _).symm
  · rw [hcount]
    rfl
  · rw [hcount]
    rfl
  · rw [hevents, List.filterMap_append]
    exact List.append_nil _

private theorem judged (tr : Tracks outcome s f₀ older start l) (stateless : ∀ p : Option φ, Judge.Stateless p)
    {view : Option View} {t : Token} {v : Except Failure Bool} {i : Intake φ} (hj : l.intake.judge view t = (v, i)) :
    Tracks outcome s f₀ older start { l with intake := i } ∧
      i.events.filterMap Event.lost? = l.events.filterMap Event.lost? ∧ Judge.verdict i.filter t = v := by
  cases hf : l.intake.filter with
  | none =>
    rw [Intake.judge_of_none hf] at hj
    obtain ⟨rfl, rfl⟩ := Prod.mk.inj hj
    exact ⟨tr, rfl, by rw [hf]; rfl⟩
  | some f =>
    rw [Intake.judge_of_some hf, stateless _ f rfl, Intake.putFilter_self hf] at hj
    obtain ⟨rfl, rfl⟩ := Prod.mk.inj hj
    obtain ⟨htr, hlost⟩ := tr.note (.inr (.inr ⟨f, t, (Judge.judge f none t).1, rfl⟩)) l.handler
    exact ⟨htr, hlost, by rw [Intake.note_filter, hf]; rfl⟩

end Tracks

/-- Every operation goes on with the account. If it is `strict`, in that no failure is caught, it loses at most one item,
with which it halts. -/
theorem tracks_carries (stateless : ∀ p : Option φ, Judge.Stateless p) (patience : Nat) (outcome : Nat → Pull)
    (s : Source) (f₀ : Option φ) (older : List (Event φ)) (start : Nat) (strict : Prop) :
    Carries patience
      (fun l => Tracks outcome s f₀ older start l ∧ (strict → l.events.filterMap Event.lost? = []))
      (fun e l => Tracks outcome s f₀ older start l ∧ (strict → LostOnly e l.events)) where
  stop e hl := ⟨hl.1, fun h => .inl (hl.2 h)⟩
  remark {l e} he hl := by
    obtain ⟨htr, hlost⟩ := hl.1.note (.inl he) l.handler
    exact ⟨htr, fun h => hlost.trans (hl.2 h)⟩
  onerror {l} g hl := by
    obtain ⟨htr, hlost⟩ := hl.1.note (.inr (.inl ⟨g, rfl⟩)) g
    exact ⟨htr, fun h => hlost.trans (hl.2 h)⟩
  become _ hl := ⟨⟨hl.1.account, hl.1.balanced, hl.1.indices_eq, hl.1.taken_eq⟩, hl.2⟩
  advance {l l' r} ha hl := by
    cases ha with
    | moved hf =>
      obtain ⟨htr, hlost⟩ := hl.1.passed (e := .consumed l.current) stateless hf rfl trivial _ _
      exact ⟨htr, fun h => hlost.trans (hl.2 h)⟩
    | halted hf =>
      obtain ⟨htr, hlost⟩ := hl.1.halted stateless hf
      exact ⟨htr, fun h => hlost (hl.2 h)⟩
  filter {l l' p r} hf hl := by
    obtain ⟨htr, hlost⟩ := hl.1.refiltered p
    have hasked : ∀ {v : Except Failure Bool} {i : Intake φ}, (l.refiltered p).judge (some l.view) l.current = (v, i) →
        Tracks outcome s f₀ older start { l with intake := i } ∧
          (strict → i.events.filterMap Event.lost? = []) ∧ Judge.verdict i.filter l.current = v := by
      intro v i hj
      obtain ⟨htr', hlost', hverdict⟩ := htr.judged stateless hj
      exact ⟨htr', fun h => hlost'.trans (hlost.trans (hl.2 h)), hverdict⟩
    cases hf with
    | atEnd => exact ⟨htr, fun h => hlost.trans (hl.2 h)⟩
    | failed _ hj =>
      obtain ⟨htr, hlost, -⟩ := hasked hj
      exact ⟨htr, fun h => .inl (hlost h)⟩
    | kept _ hj =>
      obtain ⟨htr, hlost, -⟩ := hasked hj
      exact ⟨htr, hlost⟩
    | replaced _ hj hn =>
      obtain ⟨htr, hlost, hverdict⟩ := hasked hj
      obtain ⟨htr', hlost'⟩ := htr.passed (e := .discarded l.current) stateless hn rfl hverdict l.previous l.handler
      exact ⟨htr', fun h => hlost'.trans (hlost h)⟩
    | halted _ hj hn =>
      obtain ⟨htr, hlost, -⟩ := hasked hj
      obtain ⟨htr', hlost'⟩ := htr.halted stateless hn
      exact ⟨htr', fun h => hlost' (hlost h)⟩

omit [Judge φ] in
theorem LostOnly.result {α : Type} {e : Halt} {h : List (Event φ)} (hl : LostOnly e h) :
    h.filterMap Event.lost? = [] ∨
      ∃ g, (.error e : Except Halt α) = .error (.failed g) ∧ h.filterMap Event.lost? = [g] := by
  refine hl.imp_right ?_
  rintro ⟨g, rfl, hg⟩
  exact ⟨g, rfl, hg⟩

/-- A call goes on with the account. If none of the handlers that it told of a mismatch catches a failure, it lost at
most one item, and failed with it. -/
theorem Tracks.call (stateless : ∀ p : Option φ, Judge.Stateless p) {outcome : Nat → Pull} {s : Source} {f₀ : Option φ}
    {older : List (Event φ)} {start : Nat} {l : Lexer φ} (tr : Tracks outcome s f₀ older start l)
    (hnone : l.events.filterMap Event.lost? = []) (patience : Nat) (c : Call φ) :
    let (r, l') := l.call patience c
    Tracks outcome s f₀ older start l' ∧
      ((∀ h m, .delivered h m ∈ l'.events → h.Candid) → l'.events.filterMap Event.lost? = [] ∨
        ∃ g, r = .error (.failed g) ∧ l'.events.filterMap Event.lost? = [g]) := by
  have hcandid : (∀ h m, .delivered h m ∈ (l.call patience c).2.events → h.Candid) → c.Candid l :=
    fun h m hm => h _ m (List.mem_reverse.2 (delivered_of_mismatch hm patience))
  have hcatch : c.Candid l ∨ ∀ g (l' : Lexer φ), (Tracks outcome s f₀ older start l' ∧
      (c.Candid l → LostOnly (.failed g) l'.events)) → Tracks outcome s f₀ older start l' ∧
      (c.Candid l → l'.events.filterMap Event.lost? = []) :=
    (Classical.em _).imp_right fun hc _ _ hq => ⟨hq.1, fun h => absurd h hc⟩
  have hm := (tracks_carries stateless patience outcome s f₀ older start (c.Candid l)).of_call hcatch
    ⟨tr, fun _ => hnone⟩
  rcases hc : l.call patience c with ⟨e | r, l'⟩
  · rw [hc] at hm hcandid
    exact ⟨hm.1, fun h => (hm.2 (hcandid h)).result⟩
  · rw [hc] at hm hcandid
    exact ⟨hm.1, fun h => .inl (hm.2 (hcandid h))⟩

/-- The account of a lexer that is made begins with it; if it cannot be made, nothing came in. -/
theorem create_tracks (stateless : ∀ p : Option φ, Judge.Stateless p) (patience : Nat) (input : String) (feed : Feed)
    (f₀ : Option φ) (handler : Handler φ) :
    let (r, i) := create patience { source := ⟨input⟩, feed, common := f₀ } handler
    match r with
    | .ok l => i = l.intake ∧ Tracks feed.outcome ⟨input⟩ f₀ [] feed.taken l ∧ l.events.filterMap Event.lost? = []
    | .error e => i.Account feed.outcome ⟨input⟩ f₀ i.events ∧
        i.events.filterMap Event.arrived? = [] ∧ i.events.filterMap Event.left? = [] ∧
        i.events.filterMap Event.index? = List.range' feed.taken (i.events.countP Event.isPull) ∧
        i.feed.taken = feed.taken + i.events.countP Event.isPull ∧ LostOnly e i.events := by
  let i₀ : Intake φ := { source := ⟨input⟩, feed, common := f₀ }
  have ha₀ : (i₀.note (.created i₀.source.size)).Account feed.outcome ⟨input⟩ f₀ [.created i₀.source.size] :=
    ⟨rfl, rfl, rfl, rfl, AllFair.nil.concat trivial, rfl⟩
  have hf := Intake.fetches none patience (i₀.note (.created i₀.source.size))
  unfold create
  rcases hn : (i₀.note (.created i₀.source.size)).next none patience with ⟨r, j⟩
  rw [hn] at hf
  obtain ⟨new, hnew, hd, ha, hindex, htaken, hr⟩ := hf.account stateless ha₀
  have hnew : j.events = .created i₀.source.size :: new := hnew
  have hcount : j.events.countP Event.isPull = new.countP Event.isPull := by
    rw [hnew]
    exact List.countP_cons_of_neg (by simp [Event.isPull])
  have hleft : new.filterMap Event.left? = [] := List.filterMap_eq_nil_iff.2 fun e he => Event.left?_of_isDraw (hd e he)
  have hj : j.Account feed.outcome ⟨input⟩ f₀ j.events := by rw [hnew]; exact ha
  have hindices : j.events.filterMap Event.index? = List.range' feed.taken (j.events.countP Event.isPull) := by
    rw [hcount, hnew]
    exact hindex
  rw [← hcount] at htaken
  cases r with
  | error e =>
    refine ⟨hj, ?_, ?_, hindices, htaken, ?_⟩
    · rw [hnew]
      exact hr.1
    · rw [hnew]
      exact hleft
    · unfold LostOnly
      rw [hnew]
      exact hr.2
  | ok t =>
    obtain ⟨hlost, harrived⟩ := hr
    refine ⟨rfl, ⟨hj, ?_, hindices, htaken⟩, ?_⟩
    · change Balanced _ ([] ++ j.events) j.exhausted t
      rw [hnew]
      unfold Balanced
      split
      · rename_i hx
        rw [if_pos hx] at harrived
        refine ⟨harrived.1, 0, ?_⟩
        change new.filterMap Event.left? = new.filterMap Event.arrived? ++ []
        rw [hleft, harrived.2]
        rfl
      · rename_i hx
        rw [if_neg hx] at harrived
        change new.filterMap Event.arrived? = new.filterMap Event.left? ++ [t]
        rw [hleft, harrived]
        rfl
    · change j.events.filterMap Event.lost? = []
      rw [hnew]
      exact hlost

end Lexer

end Lookahead
