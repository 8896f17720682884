import Lookahead.Proofs.Accounts

/-!
# What events tell about a lexer

The events of a lexer tell where it is: which filter is in force and in which state, what was pulled, which token is
current. `Replay.after` takes one event into account, and `Replay.along` all of them. Not every list of events comes
from a lexer: `Replay.Allows` says what may come next, in pieces that belong together, such as a question to the filter
and the pull that it is about. All events of a lexer are such pieces one after the other, and they lead to the lexer
(`Lexer.Told`); this invariant is kept by every operation.
-/

namespace Lookahead

/-- What becomes of an item with the token `t` under a verdict. -/
def Fate.under (t : Token) : Except Failure Bool → Fate
  | .error f => .lost f
  | .ok true => .kept t
  | .ok false => .rejected t

@[simp] theorem Fate.isEnd_under (t : Token) (v : Except Failure Bool) : (under t v).isEnd = false := by
  rcases v with _ | _ | _ <;> rfl

theorem Fate.eq_of_under {t u : Token} {v : Except Failure Bool} (h : under t v = kept u) : t = u := by
  rcases v with _ | _ | _
  · cases h
  · cases h
  · exact kept.inj h

/-- The token that comes in with the item, if one does: its own or the one at the end of the text `s`. -/
def Fate.incoming? (s : Source) : Fate → Option Token
  | .ended => some (.eof s)
  | .kept t => some t
  | _ => none

/-- The event changes neither the filter nor what is read. -/
def Event.isAside {φ : Type} : Event φ → Bool
  | created _ => true
  | reachedEnd _ => true
  | expected _ => true
  | delivered _ _ => true
  | handlerSet _ => true
  | _ => false

/-- The intake without its record. -/
def Intake.bare {φ : Type} (i : Intake φ) : Intake φ := { i with record := [] }

/-- What is known about a lexer from its events. -/
structure Replay (φ : Type) where
  intake : Intake φ
  /-- The current and the previous token, once there is a first token. -/
  view : Option View := none
  /-- The token that came in and is to be the current one next. -/
  incoming : Option Token := none

namespace Replay

variable {φ : Type}

/-- The current token claims the end of the text. -/
def atEnd (x : Replay φ) : Bool := x.view.any (·.current.isEof)

/-- A token comes in. The first one is current at once. -/
def receive (x : Replay φ) : Option Token → Replay φ
  | none => x
  | some t =>
    match x.view with
    | none => { x with view := some ⟨t, none⟩ }
    | some _ => { x with incoming := some t }

/-- The token that came in, if any, is the current one. -/
def proceed (x : Replay φ) (previous : View → Option Token) : Replay φ :=
  { x with view := x.view.map fun v => ⟨x.incoming.getD v.current, previous v⟩, incoming := none }

@[simp] theorem receive_intake (x : Replay φ) (t : Option Token) : (x.receive t).intake = x.intake := by
  unfold receive
  cases t with
  | none => rfl
  | some t => cases x.view <;> rfl

variable [Judge φ]

/-- What is known after one more event. -/
def after (x : Replay φ) : Event φ → Replay φ
  | .judged p t _ => { x with intake := x.intake.putFilter (Judge.judge p x.view t).2 }
  | .pulled _ fate =>
    let intake := { x.intake.onward with exhausted := fate.isEnd || x.intake.exhausted }
    { x with intake }.receive (fate.incoming? x.intake.source)
  | .consumed _ => x.proceed fun v => some v.current
  | .discarded _ => x.proceed View.previous
  | .filterSet p => { x with intake := x.intake.install p }
  | _ => x

@[simp] theorem after_source (x : Replay φ) (e : Event φ) : (x.after e).intake.source = x.intake.source := by
  cases e <;> simp [after, proceed, Intake.onward, Intake.install]

@[simp] theorem after_feed (x : Replay φ) (e : Event φ) :
    (x.after e).intake.feed = if e.isPull then x.intake.feed.next.2 else x.intake.feed := by
  cases e <;> simp [after, proceed, Intake.onward, Intake.install, Event.isPull]

@[simp] theorem after_exhausted (x : Replay φ) (e : Event φ) :
    (x.after e).intake.exhausted = (e.isEnding || x.intake.exhausted) := by
  cases e <;> simp [after, proceed, Intake.onward, Intake.install, Event.isEnding]

/-- What is known after some events. -/
def along (x : Replay φ) (es : List (Event φ)) : Replay φ := es.foldl after x

theorem along_append (x : Replay φ) (es fs : List (Event φ)) : x.along (es ++ fs) = (x.along es).along fs :=
  List.foldl_append

theorem after_of_isAside {e : Event φ} (h : e.isAside = true) (x : Replay φ) : x.after e = x := by
  revert h
  cases e <;> first | exact fun _ => rfl | exact fun h => nomatch h

/-- What may come next. An item is pulled only before the end, and it is the next one of the feed. If it is a token, the
filter in force is asked about it before. A filter that is installed is asked about the current token, unless this
claims the end. -/
inductive Allows (x : Replay φ) : List (Event φ) → Prop
  | unread {g : Failure} (hx : x.intake.exhausted = false) (hu : x.intake.upcoming = .error g) :
    Allows x [.pulled x.intake.feed.taken (.lost g)]
  | ended (hx : x.intake.exhausted = false) (hu : x.intake.upcoming = .ok none) :
    Allows x [.pulled x.intake.feed.taken .ended]
  | unasked {t : Token} (hx : x.intake.exhausted = false) (hu : x.intake.upcoming = .ok (some t))
    (hp : x.intake.filter = none) : Allows x [.pulled x.intake.feed.taken (.kept t)]
  | asked {t : Token} {p : φ} (hx : x.intake.exhausted = false) (hu : x.intake.upcoming = .ok (some t))
    (hp : x.intake.filter = some p) :
    Allows x [.judged p t (Judge.judge p x.view t).1,
      .pulled x.intake.feed.taken (.under t (Judge.judge p x.view t).1)]
  | refiltered {p : Option φ} (h : p = none ∨ x.atEnd = true) : Allows x [.filterSet p]
  | reasked {p : φ} {v : View} (hv : x.view = some v) (hc : v.current.isEof = false) :
    Allows x [.filterSet (some p), .judged p v.current (Judge.judge p x.view v.current).1]
  | consumed {v : View} (hv : x.view = some v) : Allows x [.consumed v.current]
  | discarded {v : View} (hv : x.view = some v) : Allows x [.discarded v.current]
  | aside {e : Event φ} (h : e.isAside = true) : Allows x [e]

variable {x : Replay φ} {es fs : List (Event φ)}

/-- An event of a piece of one event. -/
private theorem eq_of_single {α : Type} {as bs : List α} {a b : α} (h : as ++ a :: bs = [b]) : as = [] ∧ a = b := by
  obtain ⟨rfl, h⟩ | ⟨-, h⟩ := List.append_eq_singleton_iff.1 h
  · exact ⟨rfl, (List.cons.inj h).1⟩
  · cases h

/-- An event of a piece of two events is the one or the other. -/
private theorem eq_of_pair {α : Type} {as bs : List α} {a b c : α} (h : as ++ a :: bs = [b, c]) :
    (as = [] ∧ a = b ∧ bs = [c]) ∨ (as = [b] ∧ a = c ∧ bs = []) := by
  cases as with
  | nil =>
    obtain ⟨rfl, rfl⟩ := List.cons.inj h
    exact .inl ⟨rfl, rfl, rfl⟩
  | cons d as =>
    obtain ⟨rfl, hrest⟩ := List.cons.inj h
    obtain ⟨rfl, rfl⟩ := eq_of_single hrest
    exact .inr ⟨rfl, rfl, (List.cons.inj hrest).2⟩

/-- A token that is kept is the next item. The filter in force, if there is one, is asked about a token right before its
pull. -/
theorem Allows.of_pulled {k : Nat} {fate : Fate} (h : x.Allows (es ++ .pulled k fate :: fs)) :
    k = x.intake.feed.taken ∧ (∀ t, fate = .kept t → x.intake.upcoming = .ok (some t)) ∧
      ∀ t, x.intake.upcoming = .ok (some t) → ∀ p, x.intake.filter = some p →
        es = [.judged p t (Judge.judge p x.view t).1] ∧ fate = .under t (Judge.judge p x.view t).1 := by
  generalize hes : es ++ Event.pulled k fate :: fs = gs at h
  cases h with
  | unread hx hu =>
    obtain ⟨rfl, he⟩ := eq_of_single hes
    obtain ⟨rfl, rfl⟩ := Event.pulled.inj he
    exact ⟨rfl, nofun, fun t ht => by cases hu.symm.trans ht⟩
  | ended hx hu =>
    obtain ⟨rfl, he⟩ := eq_of_single hes
    obtain ⟨rfl, rfl⟩ := Event.pulled.inj he
    exact ⟨rfl, nofun, fun t ht => by cases hu.symm.trans ht⟩
  | unasked hx hu hp =>
    obtain ⟨rfl, he⟩ := eq_of_single hes
    obtain ⟨rfl, rfl⟩ := Event.pulled.inj he
    refine ⟨rfl, fun t ht => ?_, fun t _ p hp' => by cases hp.symm.trans hp'⟩
    rwa [← Fate.kept.inj ht]
  | @asked t p hx hu hp =>
    rcases eq_of_pair hes with ⟨-, he, -⟩ | ⟨rfl, he, -⟩
    · cases he
    · obtain ⟨rfl, rfl⟩ := Event.pulled.inj he
      refine ⟨rfl, fun u hfate => ?_, fun u ht q hq => ?_⟩
      · rwa [← Fate.eq_of_under hfate]
      · obtain rfl := Option.some.inj (Except.ok.inj (hu.symm.trans ht))
        obtain rfl := Option.some.inj (hp.symm.trans hq)
        exact ⟨rfl, rfl⟩
  | refiltered h => cases (eq_of_single hes).2
  | reasked hv hc =>
    rcases eq_of_pair hes with ⟨-, he, -⟩ | ⟨-, he, -⟩
    · cases he
    · cases he
  | consumed hv => cases (eq_of_single hes).2
  | discarded hv => cases (eq_of_single hes).2
  | aside h =>
    obtain rfl := (eq_of_single hes).2
    cases h

/-- The filter in force is asked about the next item, which is pulled then, or it was just installed and is asked about
the current token. -/
theorem Allows.of_judged {p : φ} {t : Token} {v : Except Failure Bool} (h : x.Allows (es ++ .judged p t v :: fs)) :
    (x.along es).intake.filter = some p ∧ v = (Judge.judge p (x.along es).view t).1 ∧
      ((es = [] ∧ x.intake.upcoming = .ok (some t) ∧ fs = [.pulled x.intake.feed.taken (.under t v)]) ∨
        (es = [.filterSet (some p)] ∧ x.view.map View.current = some t ∧ t.isEof = false)) := by
  generalize hes : es ++ Event.judged p t v :: fs = gs at h
  cases h with
  | unread hx hu => cases (eq_of_single hes).2
  | ended hx hu => cases (eq_of_single hes).2
  | unasked hx hu hp => cases (eq_of_single hes).2
  | asked hx hu hp =>
    rcases eq_of_pair hes with ⟨rfl, he, rfl⟩ | ⟨-, he, -⟩
    · obtain ⟨rfl, rfl, rfl⟩ := Event.judged.inj he
      exact ⟨hp, rfl, .inl ⟨rfl, hu, rfl⟩⟩
    · cases he
  | refiltered h => cases (eq_of_single hes).2
  | reasked hv hc =>
    rcases eq_of_pair hes with ⟨-, he, -⟩ | ⟨rfl, he, -⟩
    · cases he
    · obtain ⟨rfl, rfl, rfl⟩ := Event.judged.inj he
      exact ⟨rfl, rfl, .inr ⟨rfl, by rw [hv]; rfl, hc⟩⟩
  | consumed hv => cases (eq_of_single hes).2
  | discarded hv => cases (eq_of_single hes).2
  | aside h =>
    obtain rfl := (eq_of_single hes).2
    cases h

/-- The events come in pieces that are allowed one after the other. -/
inductive Lawful : Replay φ → List (Event φ) → Prop
  | nil (x : Replay φ) : Lawful x []
  | cons {x : Replay φ} {es fs : List (Event φ)} (h : x.Allows es) (hfs : Lawful (x.along es) fs) : Lawful x (es ++ fs)

theorem Lawful.append (h : x.Lawful es) (hfs : (x.along es).Lawful fs) : x.Lawful (es ++ fs) := by
  induction h with
  | nil => exact hfs
  | cons h _ ih =>
    rw [along_append] at hfs
    rw [List.append_assoc]
    exact .cons h (ih hfs)

theorem Lawful.concat (h : x.Lawful es) (hfs : (x.along es).Allows fs) : x.Lawful (es ++ fs) := by
  refine h.append ?_
  rw [← List.append_nil fs]
  exact .cons hfs (.nil _)

end Replay

namespace Intake

variable {φ : Type}

/-- What there is to know about an intake that pulls for a lexer with this view. -/
def replay (i : Intake φ) (view : Option View) : Replay φ := { intake := i.bare, view }

variable [Judge φ]

/-- From `x` on, the events of the intake `i` are lawful and lead to `y`. -/
structure Told (x : Replay φ) (i : Intake φ) (y : Replay φ) : Prop where
  lawful : x.Lawful i.events
  along_eq : x.along i.events = y

variable {x y z : Replay φ} {view : Option View} {i j : Intake φ}

theorem Told.extend (h : Told x i y) (es : List (Event φ)) (hj : j.record = es.reverse ++ i.record) (hes : y.Allows es)
    (hz : y.along es = z) : Told x j z := by
  have hevents : j.events = i.events ++ es := by
    unfold events
    rw [hj, List.reverse_append, List.reverse_reverse]
  refine ⟨?_, ?_⟩
  · rw [hevents]
    refine h.lawful.concat ?_
    rwa [h.along_eq]
  · rw [hevents, Replay.along_append, h.along_eq, hz]

/-- Nothing happened yet. -/
theorem Told.start (h : i.record = []) (view : Option View) : Told (i.replay view) i (i.replay view) := by
  have hevents : i.events = [] := congrArg List.reverse h
  refine ⟨?_, ?_⟩
  · rw [hevents]
    exact .nil _
  · rw [hevents]
    rfl

theorem Told.aside (h : Told x i y) {e : Event φ} (he : e.isAside = true) : Told x (i.note e) y :=
  h.extend [e] rfl (.aside he) (Replay.after_of_isAside he y)

omit [Judge φ] in
private theorem putFilter_bare (i : Intake φ) (p : φ) : (i.putFilter p).bare = i.bare.putFilter p := by
  rcases i with ⟨_, _, _, _ | _, _, _⟩ <;> rfl

/-- What a filter in force is asked is recorded, and changes its state. -/
private theorem judge_asked {p : φ} (hp : i.filter = some p) {t : Token} {v : Except Failure Bool}
    (hj : i.judge view t = (v, j)) :
    v = (Judge.judge p view t).1 ∧ j.bare = i.bare.putFilter (Judge.judge p view t).2 ∧
      j.record = .judged p t v :: i.record := by
  rw [judge_of_some hp] at hj
  obtain ⟨rfl, rfl⟩ := Prod.mk.inj hj
  exact ⟨rfl, putFilter_bare i _, by simp⟩

/-- The pull of a token is recorded behind the question about it, if there is a filter to ask. -/
private theorem Told.pulled (h : Told x i (i.replay view)) (hx : i.exhausted = false) {t : Token}
    {v : Except Failure Bool} {k : Intake φ} (hu : i.upcoming = .ok (some t)) (hj : i.onward.judge view t = (v, k)) :
    Told x (k.note (.pulled i.feed.taken (.under t v)))
      ((k.replay view).receive ((Fate.under t v).incoming? i.source)) := by
  cases hp : i.filter with
  | none =>
    rw [judge_of_none (i := i.onward) hp] at hj
    obtain ⟨rfl, rfl⟩ := Prod.mk.inj hj
    exact h.extend [.pulled i.feed.taken (.kept t)] rfl (.unasked hx hu hp) rfl
  | some p =>
    obtain ⟨rfl, hbare, hrecord⟩ := judge_asked (i := i.onward) hp hj
    refine h.extend [.judged p t _, .pulled i.feed.taken (.under t _)] ?_ (.asked hx hu hp) ?_
    · rw [note_record, hrecord]
      rfl
    · have hk : k.replay view = ⟨i.onward.bare.putFilter (Judge.judge p view t).2, view, none⟩ := by
        rw [← hbare]
        rfl
      rw [hk]
      rcases i with ⟨_, _, _, _ | _, _, _⟩
      · simp [Replay.along, Replay.after, replay, bare, putFilter, onward]
      · simp [Replay.along, Replay.after, replay, bare, putFilter, onward]

/-- What a pull records is allowed, and tells what became of the item. -/
private theorem Draws.told {fate : Fate} (d : Draws view i fate j) (hx : i.exhausted = false)
    (h : Told x i (i.replay view)) : Told x j ((j.replay view).receive (fate.incoming? i.source)) := by
  cases d with
  | ended hu =>
    have hj : Told x { i.onward.note (.pulled i.feed.taken .ended) with exhausted := true } _ :=
      h.extend [.pulled i.feed.taken .ended] rfl (.ended hx hu) rfl
    exact hj.aside (e := .reachedEnd i.source.size) rfl
  | unread hu => exact h.extend [.pulled i.feed.taken (.lost _)] rfl (.unread hx hu) rfl
  | unjudged hu hj => exact h.pulled hx hu hj
  | rejected hu hj => exact h.pulled hx hu hj
  | kept hu hj => exact h.pulled hx hu hj

theorem Fetches.told_of_error {n : Nat} {e : Halt} (hf : Fetches view n i (.error e) j) (h : Told x i (i.replay view)) :
    Told x j (j.replay view) := by
  generalize hr : Except.error e = r at hf
  induction hf with
  | exhausted => cases hr
  | impatient => exact h
  | ended => cases hr
  | lost hx d => exact d.told hx h
  | kept => cases hr
  | rejected hx d _ ih => exact ih (d.told hx h) hr

/-- The token that is fetched comes in, unless the end was found before. -/
theorem Fetches.told_of_ok {n : Nat} {t : Token} (hf : Fetches view n i (.ok t) j) (hx : i.exhausted = false)
    (h : Told x i (i.replay view)) : Told x j ((j.replay view).receive (some t)) := by
  generalize hr : Except.ok t = r at hf
  induction hf with
  | exhausted hx' => exact absurd (hx.symm.trans hx') Bool.false_ne_true
  | impatient => cases hr
  | ended hx d =>
    cases hr
    rw [eof, d.source_eq]
    exact d.told hx h
  | lost => cases hr
  | kept hx d =>
    cases hr
    exact d.told hx h
  | rejected hx d _ ih => exact ih (by simpa using d.exhausted_eq hx) (d.told hx h) hr

end Intake

namespace Lexer

variable {φ : Type}

/-- What there is to know about a lexer between two operations. -/
def replay (l : Lexer φ) : Replay φ := l.intake.replay (some l.view)

variable [Judge φ]

/-- From `x` on, the events of the lexer are lawful and lead to it. -/
structure Told (x : Replay φ) (l : Lexer φ) : Prop where
  intake : l.intake.Told x l.replay
  current_of_exhausted : l.intake.exhausted = true → l.current = l.intake.eof

namespace Told

variable {x : Replay φ} {l : Lexer φ} {i j : Intake φ} {v : View} {n : Nat}

/-- A search for the next token is over, and the event `e` tells that its token is the current one. -/
private theorem of_fetches {t : Token} (hf : Intake.Fetches (some v) n i (.ok t) j) (h : i.Told x (i.replay (some v)))
    (hc : i.exhausted = true → v.current = i.eof) {e : Event φ} (previous : View → Option Token) (handler : Handler φ)
    (he : ∀ y : Replay φ, y.view = some v → y.Allows [e]) (hafter : ∀ y : Replay φ, y.after e = y.proceed previous) :
    Told x ⟨j.note e, previous v, t, handler⟩ := by
  refine ⟨?_, hf.eq_eof⟩
  cases hx : i.exhausted with
  | true =>
    -- Nothing was pulled, and the current token stays the one at the end.
    obtain ⟨ht, rfl⟩ := hf.eq_of_exhausted hx
    obtain rfl := Except.ok.inj ht
    refine h.extend [e] rfl (he _ rfl) ((hafter _).trans ?_)
    rw [← hc hx]
    rfl
  | false => exact (hf.told_of_ok hx h).extend [e] rfl (he _ rfl) ((hafter _).trans rfl)

/-- A new filter is asked about the current token. -/
private theorem of_judge (h : Told x l) {f : Option φ} {verdict : Except Failure Bool} (hend : l.atEnd = false)
    (hj : (l.refiltered f).judge (some l.view) l.current = (verdict, i)) :
    Told x { l with intake := i } := by
  obtain ⟨hs, -, hx, -⟩ := Intake.judge_frame hj
  refine ⟨?_, fun hx' => (h.current_of_exhausted (hx.symm.trans hx')).trans (congrArg Token.eof hs.symm)⟩
  cases f with
  | none =>
    rw [Intake.judge_of_none (l.refiltered_filter none)] at hj
    obtain ⟨-, rfl⟩ := Prod.mk.inj hj
    exact h.intake.extend [.filterSet none] rfl (.refiltered (.inl rfl)) rfl
  | some p =>
    rw [Intake.judge_of_some (l.refiltered_filter (some p))] at hj
    obtain ⟨-, rfl⟩ := Prod.mk.inj hj
    exact h.intake.extend [.filterSet (some p), .judged p l.current _] rfl (.reasked (v := l.view) rfl hend) rfl

theorem stable {patience : Nat} : Stable patience (fun _ => True) (Told (φ := φ) x) where
  failed _ := trivial
  remark {l e} he h := ⟨h.intake.aside (by revert he; cases e <;> simp [Event.isRemark, Event.isAside]),
    h.current_of_exhausted⟩
  onerror g h := ⟨h.intake.aside rfl, h.current_of_exhausted⟩
  become _ h := ⟨h.intake, h.current_of_exhausted⟩
  advance {l l' r} ha _ h := by
    cases ha with
    | moved hf =>
      exact of_fetches hf h.intake h.current_of_exhausted (fun v => some v.current) l.handler
        (fun y hy => .consumed hy) fun _ => rfl
    | halted hf =>
      exact ⟨hf.told_of_error h.intake, fun hx => absurd (hf.exhausted_of_error.symm.trans hx) Bool.false_ne_true⟩
  filter {l l' f r} hf _ h := by
    cases hf with
    | atEnd he =>
      exact ⟨h.intake.extend [.filterSet f] rfl (.refiltered (.inr he)) rfl, h.current_of_exhausted⟩
    | failed he hj => exact h.of_judge he hj
    | kept he hj => exact h.of_judge he hj
    | replaced he hj hn =>
      have hi := h.of_judge he hj
      exact of_fetches hn hi.intake hi.current_of_exhausted View.previous l.handler (fun y hy => .discarded hy)
        fun _ => rfl
    | halted he hj hn =>
      have hi := h.of_judge he hj
      exact ⟨hn.told_of_error hi.intake, fun hx => absurd (hn.exhausted_of_error.symm.trans hx) Bool.false_ne_true⟩

theorem of_create {patience : Nat} {i : Intake φ} {handler : Handler φ} (hx : i.exhausted = false)
    (hr : i.record = []) (h : (create patience i handler).1 = .ok l) :
    Told (i.replay none) l := by
  obtain ⟨t, j, rfl, -, hf⟩ := create_eq_ok h
  have hi := (Intake.Told.start hr none).aside (e := .created i.source.size) rfl
  exact ⟨hf.told_of_ok hx hi, hf.eq_eof⟩

end Told

/-- What an attempt to make a lexer tells that failed. -/
theorem told_of_create_error {patience : Nat} {i : Intake φ} {handler : Handler φ} {e : Halt} (hr : i.record = [])
    (h : (create patience i handler).1 = .error e) :
    let j := (create patience i handler).2
    j.Told (i.replay none) (j.replay none) := by
  have hf := Intake.fetches none patience (i.note (.created i.source.size))
  unfold create at h ⊢
  rcases hn : (i.note (.created i.source.size)).next none patience with ⟨e' | t, j⟩
  · rw [hn] at hf
    exact hf.told_of_error ((Intake.Told.start hr none).aside rfl)
  · rw [hn] at h
    cases h

end Lexer

end Lookahead
