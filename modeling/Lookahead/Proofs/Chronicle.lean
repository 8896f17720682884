import Lookahead.Proofs.Replay
import Lookahead.Proofs.Sessions

/-!
# What the events of a session tell

The events of a session, each with the number of its lexer, tell where all lexers are. What happens to one lexer is
seen by the others as far as they have it in common: the state of the factory's filter, and the position in a shared
feed (`Scene.put`). As for one lexer, the events come in pieces that belong together, and they lead to the lexers of the
session (`Session.chronicle`). How the steps are mixed is not looked at any more.
-/

namespace Lookahead

/-- What is known about the lexers, by number. -/
abbrev Scene (φ : Type) := Nat → Replay φ

namespace Scene

variable {φ : Type}

/-- The lexer with the number `n` is as `y` tells. The others see the filter that they have in common, and the feed if
it is shared. -/
def put (shared : Bool) (x : Scene φ) (n : Nat) (y : Replay φ) : Scene φ := fun m =>
  if m = n then y
  else { x m with intake := { (x m).intake with
    common := y.intake.common
    feed := if shared then y.intake.feed else (x m).intake.feed } }

/-- What the lexers have in common is the same for all. -/
structure Agrees (shared : Bool) (x : Scene φ) : Prop where
  common_eq (m n : Nat) : (x m).intake.common = (x n).intake.common
  feed_eq (h : shared = true) (m n : Nat) : (x m).intake.feed = (x n).intake.feed

variable {shared : Bool} {x : Scene φ} {n m : Nat} {y z : Replay φ} {trace : List (Nat × Event φ)}

theorem put_self : x.put shared n y n = y := if_pos rfl

theorem put_of_ne (h : m ≠ n) :
    x.put shared n y m = { x m with intake := { (x m).intake with
      common := y.intake.common
      feed := if shared then y.intake.feed else (x m).intake.feed } } := if_neg h

theorem put_put : (x.put shared n y).put shared n z = x.put shared n z := by
  funext m
  by_cases h : m = n
  · rw [h, put_self, put_self]
  · rw [put_of_ne h, put_of_ne h, put_of_ne h]
    cases shared <;> rfl

theorem Agrees.put : (x.put shared n y).Agrees shared := by
  have hcommon : ∀ m, (x.put shared n y m).intake.common = y.intake.common := by
    intro m
    by_cases h : m = n
    · rw [h, put_self]
    · rw [put_of_ne h]
  have hfeed : shared = true → ∀ m, (x.put shared n y m).intake.feed = y.intake.feed := by
    intro hs m
    by_cases h : m = n
    · rw [h, put_self]
    · rw [put_of_ne h, hs]
      rfl
  exact ⟨fun m k => (hcommon m).trans (hcommon k).symm, fun hs m k => (hfeed hs m).trans (hfeed hs k).symm⟩

theorem Agrees.put_eq (h : x.Agrees shared) : x.put shared n (x n) = x := by
  funext m
  by_cases hm : m = n
  · rw [hm, put_self]
  · rw [put_of_ne hm, h.common_eq n m]
    cases hs : shared with
    | false => rfl
    | true =>
      rw [h.feed_eq hs n m]
      rfl

variable [Judge φ]

/-- What is known after one more event. -/
def after (shared : Bool) (x : Scene φ) (a : Nat × Event φ) : Scene φ := x.put shared a.1 ((x a.1).after a.2)

/-- What is known after some events. -/
def along (shared : Bool) (x : Scene φ) (trace : List (Nat × Event φ)) : Scene φ := trace.foldl (after shared) x

theorem along_append (x : Scene φ) (trace trace' : List (Nat × Event φ)) :
    x.along shared (trace ++ trace') = (x.along shared trace).along shared trace' := List.foldl_append

theorem along_map_self (x : Scene φ) (n : Nat) (es : List (Event φ)) :
    x.along shared (es.map (n, ·)) n = (x n).along es := by
  induction es generalizing x with
  | nil => rfl
  | cons e es ih =>
    have h := ih (x.after shared (n, e))
    rwa [after, put_self] at h

/-- The events of one lexer come to one change. -/
theorem Agrees.along_map (h : x.Agrees shared) (n : Nat) (es : List (Event φ)) :
    x.along shared (es.map (n, ·)) = x.put shared n ((x n).along es) := by
  induction es generalizing x with
  | nil => exact h.put_eq.symm
  | cons e es ih =>
    have hrest := ih (x := x.after shared (n, e)) .put
    rw [after, put_put, put_self] at hrest
    exact hrest

/-- The events come in pieces that are allowed one after the other, each of them of one lexer. -/
inductive Lawful (shared : Bool) : Scene φ → List (Nat × Event φ) → Prop
  | nil (x : Scene φ) : Lawful shared x []
  | cons {x : Scene φ} {n : Nat} {es : List (Event φ)} {rest : List (Nat × Event φ)} (h : (x n).Allows es)
    (hrest : Lawful shared (x.along shared (es.map (n, ·))) rest) : Lawful shared x (es.map (n, ·) ++ rest)

/-- What is lawful for a lexer is lawful for all, as long as only this lexer is told of. -/
theorem Lawful.of_replay {es : List (Event φ)} {rest : List (Nat × Event φ)} (h : (x n).Lawful es)
    (hrest : Lawful shared (x.along shared (es.map (n, ·))) rest) : Lawful shared x (es.map (n, ·) ++ rest) := by
  generalize hy : x n = y at h
  induction h generalizing x with
  | nil => exact hrest
  | cons h _ ih =>
    rw [List.map_append, along_append] at hrest
    rw [List.map_append, List.append_assoc]
    refine .cons (hy ▸ h) (ih hrest ?_)
    rw [along_map_self, hy]

/-- Every event is part of a piece of events of its lexer. -/
theorem Lawful.piece (h : Lawful shared x trace) {before after : List (Nat × Event φ)} {e : Event φ}
    (ht : trace = before ++ (n, e) :: after) :
    ∃ pre es fs post, before = pre ++ es.map (n, ·) ∧ after = fs.map (n, ·) ++ post ∧
      (x.along shared pre n).Allows (es ++ e :: fs) := by
  induction h generalizing before with
  | nil => exact absurd ht (by simp)
  | @cons x m es rest h _ ih =>
    rcases List.append_eq_append_iff.1 ht with ⟨between, hbefore, hrest⟩ | ⟨between, hes, hafter⟩
    · -- The event is behind the first piece.
      obtain ⟨pre, gs, fs, post, rfl, hpost, hallows⟩ := ih hrest
      refine ⟨es.map (m, ·) ++ pre, gs, fs, post, ?_, hpost, ?_⟩
      · rw [hbefore, List.append_assoc]
      · rwa [along_append]
    · cases between with
      | nil =>
        obtain ⟨pre, gs, fs, post, hpre, hpost, hallows⟩ := @ih [] hafter.symm
        obtain ⟨rfl, hgs⟩ := List.append_eq_nil_iff.1 hpre.symm
        obtain rfl := List.map_eq_nil_iff.1 hgs
        refine ⟨es.map (m, ·), [], fs, post, ?_, hpost, ?_⟩
        · rw [List.map_nil, hes, List.append_nil, List.append_nil]
        · exact hallows
      | cons a between =>
        -- The event is in the first piece.
        obtain ⟨rfl, rfl⟩ := List.cons.inj hafter
        obtain ⟨gs, fs', rfl, rfl, hfs⟩ := List.map_eq_append_iff.1 hes
        obtain ⟨e', fs, rfl, he, rfl⟩ := List.map_eq_cons_iff.1 hfs
        obtain ⟨rfl, rfl⟩ := Prod.mk.inj he
        exact ⟨[], gs, fs, rest, rfl, rfl, h⟩

/-! ### What is read -/

theorem after_source (x : Scene φ) (a : Nat × Event φ) (m : Nat) :
    (x.after shared a m).intake.source = (x m).intake.source := by
  by_cases h : m = a.1
  · rw [h, after, put_self, Replay.after_source]
  · rw [after, put_of_ne h]

theorem along_source (x : Scene φ) (trace : List (Nat × Event φ)) (m : Nat) :
    (x.along shared trace m).intake.source = (x m).intake.source := by
  induction trace generalizing x with
  | nil => rfl
  | cons a trace ih => exact (ih _).trans (after_source x a m)

theorem Agrees.along (h : x.Agrees shared) (trace : List (Nat × Event φ)) : (x.along shared trace).Agrees shared := by
  induction trace generalizing x with
  | nil => exact h
  | cons a trace ih => exact ih .put

theorem Agrees.after_outcome (h : x.Agrees shared) (a : Nat × Event φ) (m : Nat) :
    (x.after shared a m).intake.feed.outcome = (x m).intake.feed.outcome := by
  have hself : ((x a.1).after a.2).intake.feed.outcome = (x a.1).intake.feed.outcome := by
    rw [Replay.after_feed]
    split <;> rfl
  by_cases hm : m = a.1
  · rw [hm, after, put_self, hself]
  · rw [after, put_of_ne hm]
    cases hs : shared with
    | false => rfl
    | true => exact hself.trans (congrArg Feed.outcome (h.feed_eq hs a.1 m))

theorem Agrees.along_outcome (h : x.Agrees shared) (trace : List (Nat × Event φ)) (m : Nat) :
    (x.along shared trace m).intake.feed.outcome = (x m).intake.feed.outcome := by
  induction trace generalizing x with
  | nil => rfl
  | cons a trace ih => exact (ih .put).trans (h.after_outcome a m)

/-- What the item at a position of its feed means to a lexer. -/
def reads (x : Scene φ) (n k : Nat) : Except Failure (Option Token) :=
  ((x n).intake.feed.outcome k).read (x n).intake.source

omit [Judge φ] in
theorem reads_taken (x : Scene φ) (n : Nat) : x.reads n (x n).intake.feed.taken = (x n).intake.upcoming := rfl

theorem Agrees.reads_along (h : x.Agrees shared) (trace : List (Nat × Event φ)) :
    (x.along shared trace).reads = x.reads := by
  funext n k
  unfold reads
  rw [h.along_outcome, along_source]

end Scene

namespace Factory

variable {φ : Type}

/-- The feed that is made for an input, if one is. -/
def feed? (f : Factory φ) (input : String) : Option Feed := (f.tokenizer input).toOption

/-- The feed that the lexer with the number `n` reads from, if lexers are asked for over `inputs`. Lexers that share a
feed read from the first that is made. -/
def stream (f : Factory φ) (inputs : List String) (n : Nat) : Feed :=
  (if f.shared then inputs.findSome? f.feed? else inputs[n]?.bind f.feed?).getD (.ofList [])

/-- The lexers over `inputs` before they are made. -/
def scene (f : Factory φ) (inputs : List String) : Scene φ := fun n =>
  { intake := { source := ⟨inputs.getD n ""⟩, feed := f.stream inputs n, common := f.filter } }

end Factory

namespace Session

variable {φ : Type}

theorem lend_takeBack (s : Session φ) (i j : Intake φ) :
    (s.takeBack j).lend i =
      { i with common := j.common, feed := if s.factory.shared then j.feed else i.feed, record := [] } := by
  unfold lend takeBack
  cases s.factory.shared <;> rfl

/-- The scene `x` shows the session `s`, which asked for lexers over the inputs in `done` and is to ask for lexers over
the rest of `inputs`. -/
structure Depicted (f : Factory φ) (inputs done : List String) (s : Session φ) (x : Scene φ) : Prop where
  factory_eq : s.factory = f
  size_eq : s.lexers.size = done.length
  feed_eq : f.shared = false → s.feed = none
  unmade : s.feed = none → f.shared = true → ∀ input ∈ done, f.feed? input = none
  agrees : x.Agrees f.shared
  made {n : Nat} {l : Lexer φ} : s.lexers[n]? = some (some l) →
    x n = { intake := s.lend l.intake, view := some l.view }
  settled {n : Nat} {l : Lexer φ} : s.lexers[n]? = some (some l) → l.intake.exhausted = true →
    l.current = l.intake.eof
  fresh {n : Nat} : s.lexers.size ≤ n →
    x n = { intake :=
      { source := ⟨inputs.getD n ""⟩, feed := s.feed.getD (f.stream inputs n), common := s.filter } }

namespace Depicted

variable {f : Factory φ} {inputs done : List String} {s : Session φ} {x : Scene φ}

theorem start (f : Factory φ) (inputs : List String) : Depicted f inputs [] (start f) (f.scene inputs) where
  factory_eq := rfl
  size_eq := rfl
  feed_eq _ := rfl
  unmade _ _ _ h := absurd h List.not_mem_nil
  agrees := by
    refine ⟨fun _ _ => rfl, fun hs m n => ?_⟩
    unfold Factory.scene Factory.stream
    rw [hs]
    rfl
  made h := nomatch h
  settled h := nomatch h
  fresh _ := rfl

/-- Something happened to the lexer with the number `n`, which was lent what it has in common with others. -/
private theorem go_on (d : Depicted f inputs done s x) {done' : List String} {lexers : Array (Option (Lexer φ))}
    {n : Nat} {j : Intake φ} {view : Option View} (hsize : lexers.size = done'.length) (hn : n < lexers.size)
    (hle : s.lexers.size ≤ lexers.size) (hothers : ∀ m, m ≠ n → lexers[m]? = s.lexers[m]?)
    (hself : ∀ l, lexers[n]? = some (some l) →
      l.intake = j ∧ view = some l.view ∧ (l.intake.exhausted = true → l.current = l.intake.eof)) :
    Depicted f inputs done' { s.takeBack j with lexers } (x.put f.shared n (j.replay view)) where
  factory_eq := d.factory_eq
  size_eq := hsize
  feed_eq h := by
    change (if s.factory.shared then some j.feed else s.feed) = none
    rw [d.factory_eq, h]
    exact d.feed_eq h
  unmade h hs := by
    have h : (if s.factory.shared then some j.feed else s.feed) = none := h
    rw [d.factory_eq, hs] at h
    cases h
  agrees := .put
  made {m l} h := by
    change _ = ({ intake := (s.takeBack j).lend l.intake, view := some l.view } : Replay φ)
    rw [lend_takeBack, d.factory_eq]
    by_cases hm : m = n
    · subst hm
      obtain ⟨rfl, rfl, -⟩ := hself l h
      rw [Scene.put_self]
      cases f.shared <;> rfl
    · have h : lexers[m]? = some (some l) := h
      rw [hothers m hm] at h
      rw [Scene.put_of_ne hm, d.made h, lend, d.factory_eq]
      cases f.shared <;> rfl
  settled {m l} h := by
    by_cases hm : m = n
    · subst hm
      exact (hself l h).2.2
    · exact d.settled ((hothers m hm).symm.trans h)
  fresh {m} h := by
    have h : lexers.size ≤ m := h
    rw [Scene.put_of_ne (by omega), d.fresh (Nat.le_trans hle h), takeBack, d.factory_eq]
    cases f.shared <;> rfl

variable [Judge φ]

/-- The events of a step on a lexer are lawful, and lead on. -/
private theorem call (d : Depicted f inputs done s x) (patience n : Nat) (c : Call φ) :
    let es := (s.call patience n c).1.events
    (x n).Lawful es ∧
      Depicted f inputs done (s.call patience n c).2 (x.along f.shared (es.map (n, ·))) := by
  cases hl : s.lexers[n]?.join with
  | none =>
    rw [call_of_none hl]
    exact ⟨.nil _, d⟩
  | some l =>
    have hl : s.lexers[n]? = some (some l) := Option.join_eq_some_iff.1 hl
    obtain ⟨hn, -⟩ := Array.getElem?_eq_some_iff.1 hl
    have hlent : Lexer.Told (x n) { l with intake := s.lend l.intake } := by
      have hsettled := d.settled hl
      refine ⟨?_, hsettled⟩
      rw [d.made hl]
      exact Intake.Told.start (i := s.lend l.intake) rfl (some l.view)
    have hstable : Lexer.Stable patience (fun _ => True) (Lexer.Told (x n)) := Lexer.Told.stable
    have htold := hstable.of_call (c := c) (fun _ _ => trivial) hlent
    have hcall := call_of_some hl patience c
    rcases hc : ({ l with intake := s.lend l.intake } : Lexer φ).call patience c with ⟨r, l'⟩
    rw [hc] at htold hcall
    rw [hcall]
    refine ⟨htold.intake.lawful, ?_⟩
    dsimp only
    rw [d.agrees.along_map, show (x n).along l'.events = l'.replay from htold.intake.along_eq]
    have hset : (s.lexers.setIfInBounds n (some l')).size = s.lexers.size := Array.size_setIfInBounds
    refine d.go_on (hset.trans d.size_eq) (hset ▸ hn) (Nat.le_of_eq hset.symm)
      (fun m hm => Array.getElem?_setIfInBounds_ne (Ne.symm hm)) fun l'' hl'' => ?_
    rw [Array.getElem?_setIfInBounds_self_of_lt hn] at hl''
    obtain rfl := Option.some.inj (Option.some.inj hl'')
    exact ⟨rfl, rfl, htold.current_of_exhausted⟩

omit [Judge φ] in
/-- The feed that is supplied is the one that the lexer was to read from. -/
private theorem supply_eq (d : Depicted f inputs done s x) {input : String} {rest : List String}
    (hinputs : inputs = done ++ input :: rest) {feed : Feed} (h : s.supply input = .ok feed) :
    s.feed.getD (f.stream inputs s.lexers.size) = feed := by
  unfold supply at h
  cases hf : s.feed with
  | some feed' =>
    rw [hf] at h
    exact Except.ok.inj h
  | none =>
    rw [hf, d.factory_eq] at h
    have h : f.tokenizer input = .ok feed := h
    have hmade : f.feed? input = some feed := by
      unfold Factory.feed?
      rw [h]
      rfl
    rw [Option.getD_none, Factory.stream, hinputs, d.size_eq]
    cases hs : f.shared with
    | false =>
      rw [List.getElem?_append_right (Nat.le_refl _), Nat.sub_self]
      simp [hmade]
    | true =>
      have hdone : done.findSome? f.feed? = none := List.findSome?_eq_none_iff.2 (d.unmade hf hs)
      rw [List.findSome?_append, hdone]
      simp [hmade]

omit [Judge φ] in
/-- No feed was made, and the next number goes to no lexer. -/
private theorem skip (d : Depicted f inputs done s x) {input : String} {g : Failure} (h : s.supply input = .error g) :
    Depicted f inputs (done ++ [input]) (s.add none) x where
  factory_eq := d.factory_eq
  size_eq := by
    rw [add, Array.size_push, d.size_eq, List.length_append]
    rfl
  feed_eq := d.feed_eq
  unmade hf hs := by
    have hf : s.feed = none := hf
    rw [List.forall_mem_append]
    refine ⟨d.unmade hf hs, fun input' h' => ?_⟩
    obtain rfl := List.mem_singleton.1 h'
    have h : f.tokenizer input' = .error g := by
      unfold supply at h
      rwa [hf, d.factory_eq] at h
    unfold Factory.feed?
    rw [h]
    rfl
  agrees := d.agrees
  made {n l} h := by
    have h : (s.lexers.push none)[n]? = some (some l) := h
    rw [Array.getElem?_push] at h
    split at h
    · cases h
    · exact d.made h
  settled {n l} h := by
    have h : (s.lexers.push none)[n]? = some (some l) := h
    rw [Array.getElem?_push] at h
    split at h
    · cases h
    · exact d.settled h
  fresh {n} h := by
    have h : (s.lexers.push none).size ≤ n := h
    rw [Array.size_push] at h
    exact d.fresh (Nat.le_of_succ_le h)

/-- The next number goes to `o`, whose intake is `j` by now. -/
private theorem grow (d : Depicted f inputs done s x) {input : String} {i j : Intake φ} {view : Option View}
    {o : Option (Lexer φ)} (hx : x s.lexers.size = i.replay none) (ht : j.Told (i.replay none) (j.replay view))
    (ho : ∀ l, o = some l →
      l.intake = j ∧ view = some l.view ∧ (l.intake.exhausted = true → l.current = l.intake.eof)) :
    (x s.lexers.size).Lawful j.events ∧ Depicted f inputs (done ++ [input]) ((s.takeBack j).add o)
      (x.along f.shared (j.events.map (s.lexers.size, ·))) := by
  have hpush : (s.lexers.push o).size = s.lexers.size + 1 := Array.size_push ..
  have hgo : Depicted f inputs (done ++ [input]) { s.takeBack j with lexers := s.lexers.push o }
      (x.put f.shared s.lexers.size (j.replay view)) := by
    refine d.go_on ?_ (by omega) (by omega) (fun m hm => ?_) fun l hl => ?_
    · rw [hpush, d.size_eq, List.length_append]
      rfl
    · rw [Array.getElem?_push, if_neg hm]
    · rw [Array.getElem?_push, if_pos rfl] at hl
      exact ho l (Option.some.inj hl)
  refine ⟨hx ▸ ht.lawful, ?_⟩
  rw [d.agrees.along_map, hx, ht.along_eq]
  exact hgo

/-- The events of making a lexer are lawful, and lead on. -/
private theorem lex (d : Depicted f inputs done s x) (patience : Nat) {input : String} {rest : List String}
    (hinputs : inputs = done ++ input :: rest) :
    let es := (s.lex patience input).1.events
    (x s.lexers.size).Lawful es ∧ Depicted f inputs (done ++ [input]) (s.lex patience input).2
      (x.along f.shared (es.map (s.lexers.size, ·))) := by
  cases hsupply : s.supply input with
  | error g =>
    have hlex : s.lex patience input = (s.add none).reply (.error (.failed g)) none [] := by
      unfold Session.lex
      rw [hsupply]
    rw [hlex]
    exact ⟨.nil _, d.skip hsupply⟩
  | ok feed =>
    let i : Intake φ := { source := ⟨input⟩, feed, common := s.filter }
    have hinput : inputs.getD s.lexers.size "" = input := by
      rw [hinputs, d.size_eq, List.getD_eq_getElem?_getD, List.getElem?_append_right (Nat.le_refl _), Nat.sub_self]
      rfl
    have hx : x s.lexers.size = i.replay none := by
      rw [d.fresh (Nat.le_refl _), d.supply_eq hinputs hsupply, hinput]
      rfl
    cases hc : (Lexer.create patience i s.factory.handler).1 with
    | error e =>
      have hlex : s.lex patience input =
          ((s.takeBack (Lexer.create patience i s.factory.handler).2).add none).reply (.error e) none
            (Lexer.create patience i s.factory.handler).2.record := by
        unfold Session.lex
        rw [hsupply]
        dsimp only
        rw [hc]
      rw [hlex]
      exact d.grow hx (Lexer.told_of_create_error rfl hc) nofun
    | ok l =>
      obtain ⟨t, j, hl, hj, -⟩ := Lexer.create_eq_ok hc
      have hlex : s.lex patience input = ((s.takeBack j).add (some l)).reply (.ok .done) (some l) j.record := by
        unfold Session.lex
        rw [hsupply]
        dsimp only
        rw [hc, hj]
      have htold := Lexer.Told.of_create rfl rfl hc
      subst hl
      rw [hlex]
      refine d.grow hx htold.intake fun l' hl' => ?_
      obtain rfl := Option.some.inj hl'
      exact ⟨rfl, rfl, htold.current_of_exhausted⟩

private theorem step (d : Depicted f inputs done s x) (patience : Nat) (step : Step φ) {rest : List String}
    (hinputs : inputs = done ++ (step.input?.toList ++ rest)) :
    let es := (s.step patience step).1.events
    (x (s.subject step)).Lawful es ∧ Depicted f inputs (done ++ step.input?.toList) (s.step patience step).2
      (x.along f.shared (es.map (s.subject step, ·))) := by
  cases step with
  | lex input => exact d.lex patience hinputs
  | call n c =>
    rw [show done ++ (Step.call n c : Step φ).input?.toList = done from List.append_nil _]
    exact d.call patience n c

theorem run (d : Depicted f inputs done s x) (patience : Nat) (steps : List (Step φ))
    (hinputs : inputs = done ++ steps.filterMap Step.input?) :
    x.Lawful f.shared (s.trace patience steps) ∧
      Depicted f inputs inputs (s.run patience steps).2 (x.along f.shared (s.trace patience steps)) := by
  induction steps generalizing done s x with
  | nil =>
    rw [List.filterMap_nil, List.append_nil] at hinputs
    subst hinputs
    exact ⟨.nil x, d⟩
  | cons step steps ih =>
    have hhead : (step :: steps).filterMap Step.input? = step.input?.toList ++ steps.filterMap Step.input? := by
      rw [List.filterMap_cons]
      cases step.input? <;> rfl
    rw [hhead] at hinputs
    obtain ⟨hlawful, hnext⟩ := d.step patience step hinputs
    obtain ⟨hrest, hlast⟩ := ih hnext (by rw [hinputs, List.append_assoc])
    rw [run_cons, trace_cons, Scene.along_append]
    exact ⟨.of_replay hlawful hrest, hlast⟩

end Depicted

variable [Judge φ]

/-- All events of a session are lawful, and lead to its lexers. -/
theorem chronicle (f : Factory φ) (patience : Nat) (steps : List (Step φ)) :
    let inputs := steps.filterMap Step.input?
    let trace := (start f).trace patience steps
    (f.scene inputs).Lawful f.shared trace ∧
      Depicted f inputs inputs ((start f).run patience steps).2 ((f.scene inputs).along f.shared trace) :=
  (Depicted.start f _).run patience steps rfl

end Session

end Lookahead
