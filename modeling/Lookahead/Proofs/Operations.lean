import Lookahead.Proofs.Plans
import Lookahead.Proofs.Pulling
import Lookahead.Session

/-!
# Operations

What advancing and filtering can do (`Lexer.Advances`, `Lexer.Refilters`), as relations with one rule per case. All
other operations, and whatever handlers do, are made of these two, of putting other handlers in place and of remarks. So
a property that these keep (`Lexer.Stable`) is kept by every operation and by every run of operations. If a halt costs
the property, it is kept as long as no handler catches a failure (`Lexer.Carries`).
-/

namespace Lookahead

/-- A remark about an unmet expectation. -/
def Event.isRemark {φ : Type} : Event φ → Bool
  | expected _ => true
  | delivered _ _ => true
  | _ => false

/-- The call hands out the token `t` if it is current. -/
def Call.passes {φ : Type} (t : Token) : Call φ → Bool
  | advance => true
  | accept group value => t.fits group value
  | expect group value => t.fits group value
  | _ => false

/-- The mismatch that a call is if the token `t` is current. -/
def Call.mismatch? {φ : Type} (t : Token) : Call φ → Option Mismatch
  | expect group value => if t.fits group value then none else some ⟨t, group, value⟩
  | _ => none

theorem Call.mismatch?_of_not_fits {φ : Type} {t : Token} {group : String} {value : Option String}
    (h : t.fits group value = false) : (Call.expect group value : Call φ).mismatch? t = some ⟨t, group, value⟩ := by
  simp [mismatch?, h]

/-- No handler that the call tells of a mismatch catches a failure. -/
def Call.Candid {φ : Type} (l : Lexer φ) (c : Call φ) : Prop := ∀ m, c.mismatch? l.current = some m → l.handler.Candid

/-- A result is there, or its halt is of the kind `A`. -/
def Halt.Only {α : Type} (A : Halt → Prop) (r : Except Halt α) : Prop := ∀ e, r = .error e → A e

namespace Halt

variable {α β : Type} {A : Halt → Prop}

@[simp] theorem only_ok (a : α) : Only A (.ok a) := fun _ h => nomatch h

@[simp] theorem only_error {e : Halt} : Only A (.error e : Except Halt α) ↔ A e :=
  ⟨fun h => h e rfl, fun h _ he => Except.error.inj he ▸ h⟩

theorem map_eq_error_iff {f : α → β} {r : Except Halt α} {e : Halt} : r.map f = .error e ↔ r = .error e := by
  cases r <;> simp [Except.map]

/-- What fails for a reason of its own did not run out of patience. -/
theorem mapError_ne_impatient {r : Except Failure α} : r.mapError failed ≠ .error impatient := by
  intro h
  cases r <;> cases h

end Halt

namespace Lexer

variable {φ : Type}

/-- The latest events last. -/
def events (l : Lexer φ) : List (Event φ) := l.intake.events

/-- The events since an earlier state. -/
def since (l l' : Lexer φ) : List (Event φ) := l'.events.drop l.events.length

theorem since_eq {l l' : Lexer φ} {new : List (Event φ)} (h : l'.intake.record = new ++ l.intake.record) :
    l.since l' = new.reverse := by
  simp [since, events, Intake.events, h]

/-- The intake once a filter is installed. -/
def refiltered (l : Lexer φ) (f : Option φ) : Intake φ := (l.intake.install f).note (.filterSet f)

@[simp] theorem refiltered_filter (l : Lexer φ) (f : Option φ) : (l.refiltered f).filter = f := rfl

variable [Judge φ]

/-- The messages so far. -/
def messages (l : Lexer φ) : List String := l.events.filterMap Event.message?

/-- Carries out operations one after the other. -/
def run (patience : Nat) : Lexer φ → List (Call φ) → List (Except Halt Answer) × Lexer φ
  | l, [] => ([], l)
  | l, c :: cs =>
    let (a, l) := l.call patience c
    let (as, l) := run patience l cs
    (a :: as, l)

/-- A lexer that is made holds the first token that was fetched. -/
theorem create_eq_ok {patience : Nat} {i : Intake φ} {handler : Handler φ} {l : Lexer φ}
    (h : (create patience i handler).1 = .ok l) :
    ∃ t j, l = ⟨j, none, t, handler⟩ ∧ (create patience i handler).2 = j ∧
      Intake.Fetches none patience (i.note (.created i.source.size)) (.ok t) j := by
  have hf := Intake.fetches none patience (i.note (.created i.source.size))
  unfold create at h ⊢
  rcases hn : (i.note (.created i.source.size)).next none patience with ⟨e | t, j⟩
  · rw [hn] at h
    cases h
  · rw [hn] at h hf
    cases h
    exact ⟨t, j, rfl, rfl, hf⟩

/-! ### Advancing -/

private theorem next_eq (patience : Nat) (l : Lexer φ) (i : Intake φ) :
    ({ l with intake := i } : Lexer φ).next patience =
      ((i.next (some l.view) patience).1, { l with intake := (i.next (some l.view) patience).2 }) := rfl

/-- What advancing can do. -/
inductive Advances (patience : Nat) (l : Lexer φ) : Except Halt Token → Lexer φ → Prop
  | moved {t : Token} {i : Intake φ} (h : Intake.Fetches (some l.view) patience l.intake (.ok t) i) :
    Advances patience l (.ok l.current) ⟨i.note (.consumed l.current), some l.current, t, l.handler⟩
  | halted {e : Halt} {i : Intake φ} (h : Intake.Fetches (some l.view) patience l.intake (.error e) i) :
    Advances patience l (.error e) { l with intake := i }

theorem advance_advances (patience : Nat) (l : Lexer φ) :
    Advances patience l (l.advance patience).1 (l.advance patience).2 := by
  have h := Intake.fetches (some l.view) patience l.intake
  unfold advance next
  rcases hn : l.intake.next (some l.view) patience with ⟨e | t, i⟩
  · rw [hn] at h; exact .halted h
  · rw [hn] at h; exact .moved h

/-- What advancing can do is what it does. -/
theorem Advances.eq_advance {patience : Nat} {l l' : Lexer φ} {r : Except Halt Token} (h : Advances patience l r l') :
    l.advance patience = (r, l') := by
  cases h with
  | moved hf => simp only [advance, next, hf.eq_next]; rfl
  | halted hf => simp only [advance, next, hf.eq_next]

theorem Advances.handler_eq {patience : Nat} {l l' : Lexer φ} {r : Except Halt Token}
    (h : Advances patience l r l') : l'.handler = l.handler := by
  cases h <;> rfl

/-- That the current token was handed out is recorded last. -/
theorem Advances.record_eq {patience : Nat} {l l' : Lexer φ} {r : Except Halt Token}
    (h : Advances patience l r l') :
    ∃ drawn : List (Event φ), l'.intake.record = r.toOption.toList.map .consumed ++ (drawn ++ l.intake.record) ∧
      ∀ e ∈ drawn, e.isDraw = true := by
  cases h with
  | moved hf =>
    obtain ⟨drawn, hd, hr⟩ := hf.record_eq
    exact ⟨drawn, congrArg (_ :: ·) hr, hd⟩
  | halted hf =>
    obtain ⟨drawn, hd, hr⟩ := hf.record_eq
    exact ⟨drawn, hr, hd⟩

theorem Advances.fetches_of_error {patience : Nat} {l l' : Lexer φ} {e : Halt}
    (h : Advances patience l (.error e) l') :
    ∃ i, Intake.Fetches (some l.view) patience l.intake (.error e) i := by
  cases h with
  | halted hf => exact ⟨_, hf⟩

/-- Before the end, every advance pulls. -/
theorem Advances.taken_lt {patience : Nat} {l l' : Lexer φ} {r : Except Halt Token} (h : Advances patience l r l')
    (hp : 0 < patience) (hx : l.intake.exhausted = false) : l.intake.feed.taken < l'.intake.feed.taken := by
  cases h with
  | moved hf => exact hf.taken_lt hp hx
  | halted hf => exact hf.taken_lt hp hx

/-! ### Accepting and expecting -/

section Fitting

variable {l : Lexer φ} {group : String} {value : Option String} (patience : Nat)

theorem accept_of_fits (h : l.current.fits group value = true) :
    l.accept patience group value = ((l.advance patience).1.map some, (l.advance patience).2) := by
  unfold accept
  rw [if_pos h]

theorem accept_of_not_fits (h : l.current.fits group value = false) :
    l.accept patience group value = (.ok none, l) := by
  unfold accept
  rw [h]
  rfl

theorem expectOr_of_fits (react : Mismatch → Lexer φ → Except Halt Unit × Lexer φ)
    (h : l.current.fits group value = true) :
    l.expectOr patience react group value = ((l.advance patience).1.map some, (l.advance patience).2) := by
  unfold expectOr
  rw [accept_of_fits patience h]
  rcases (l.advance patience).1 with e | t <;> rfl

theorem expectOr_of_not_fits (react : Mismatch → Lexer φ → Except Halt Unit × Lexer φ)
    (h : l.current.fits group value = false) :
    let m : Mismatch := ⟨l.current, group, value⟩
    let answer := react m (l.note (.expected m))
    l.expectOr patience react group value = (answer.1.map fun _ => none, answer.2) := by
  unfold expectOr
  rw [accept_of_not_fits patience h]

theorem expect_of_fits (h : l.current.fits group value = true) :
    l.expect patience group value = ((l.advance patience).1.map some, (l.advance patience).2) :=
  expectOr_of_fits patience _ h

theorem expect_of_not_fits (h : l.current.fits group value = false) :
    let m : Mismatch := ⟨l.current, group, value⟩
    let answer := react patience l.handler m (l.note (.expected m))
    l.expect patience group value = (answer.1.map fun _ => none, answer.2) :=
  expectOr_of_not_fits patience _ h

end Fitting

/-! ### Filtering -/

theorem filter_of_atEnd {l : Lexer φ} (h : l.atEnd = true) (patience : Nat) (f : Option φ) :
    l.filter patience f = (.ok (), { l with intake := l.refiltered f }) :=
  if_pos h

/-- What installing a filter can do. -/
inductive Refilters (patience : Nat) (f : Option φ) (l : Lexer φ) : Except Halt Unit → Lexer φ → Prop
  | atEnd (h : l.atEnd = true) : Refilters patience f l (.ok ()) { l with intake := l.refiltered f }
  | failed {g : Failure} {i : Intake φ} (h : l.atEnd = false)
    (hj : (l.refiltered f).judge (some l.view) l.current = (.error g, i)) :
    Refilters patience f l (.error (.failed g)) { l with intake := i }
  | kept {i : Intake φ} (h : l.atEnd = false)
    (hj : (l.refiltered f).judge (some l.view) l.current = (.ok true, i)) :
    Refilters patience f l (.ok ()) { l with intake := i }
  | replaced {i j : Intake φ} {t : Token} (h : l.atEnd = false)
    (hj : (l.refiltered f).judge (some l.view) l.current = (.ok false, i))
    (hn : Intake.Fetches (some l.view) patience i (.ok t) j) :
    Refilters patience f l (.ok ()) { l with intake := j.note (.discarded l.current), current := t }
  | halted {i j : Intake φ} {e : Halt} (h : l.atEnd = false)
    (hj : (l.refiltered f).judge (some l.view) l.current = (.ok false, i))
    (hn : Intake.Fetches (some l.view) patience i (.error e) j) :
    Refilters patience f l (.error e) { l with intake := j }

theorem filter_eq (patience : Nat) (f : Option φ) (l : Lexer φ) :
    l.filter patience f =
      if l.atEnd then (.ok (), { l with intake := l.refiltered f })
      else match (l.refiltered f).judge (some l.view) l.current with
        | (.error f, intake) => (.error (.failed f), { l with intake })
        | (.ok true, intake) => (.ok (), { l with intake })
        | (.ok false, intake) =>
          match ({ l with intake } : Lexer φ).next patience with
          | (.ok t, l') => (.ok (), { l' with current := t }.note (.discarded l.current))
          | (.error e, l') => (.error e, l') := rfl

theorem filter_refilters (patience : Nat) (f : Option φ) (l : Lexer φ) :
    Refilters patience f l (l.filter patience f).1 (l.filter patience f).2 := by
  rw [filter_eq]
  cases h : l.atEnd with
  | true => exact .atEnd h
  | false =>
    simp only [Bool.false_eq_true, ↓reduceIte]
    rcases hj : (l.refiltered f).judge (some l.view) l.current with ⟨g | b, i⟩
    · exact .failed h hj
    · cases b with
      | true => exact .kept h hj
      | false =>
        have hn := Intake.fetches (some l.view) patience i
        dsimp only
        rw [next_eq]
        rcases hr : i.next (some l.view) patience with ⟨e | t, j⟩
        · rw [hr] at hn; exact .halted h hj hn
        · rw [hr] at hn; exact .replaced h hj hn

theorem Refilters.eq_filter {patience : Nat} {f : Option φ} {l l' : Lexer φ} {r : Except Halt Unit}
    (h : Refilters patience f l r l') : l.filter patience f = (r, l') := by
  cases h with
  | atEnd he => exact filter_of_atEnd he patience f
  | failed he hj => rw [filter_eq, he, hj]; rfl
  | kept he hj => rw [filter_eq, he, hj]; rfl
  | @replaced i j t he hj hn =>
    have hnext : ({ l with intake := i } : Lexer φ).next patience = (.ok t, { l with intake := j }) := by
      rw [next_eq, hn.eq_next]
    rw [filter_eq, he, hj]
    simp only [hnext]
    rfl
  | @halted i j e he hj hn =>
    have hnext : ({ l with intake := i } : Lexer φ).next patience = (.error e, { l with intake := j }) := by
      rw [next_eq, hn.eq_next]
    rw [filter_eq, he, hj]
    simp only [hnext]
    rfl

/-- A token that is given up is not the previous one then. -/
theorem Refilters.previous_eq {patience : Nat} {f : Option φ} {l l' : Lexer φ} {r : Except Halt Unit}
    (h : Refilters patience f l r l') : l'.previous = l.previous := by
  cases h <;> rfl

theorem Refilters.handler_eq {patience : Nat} {f : Option φ} {l l' : Lexer φ} {r : Except Halt Unit}
    (h : Refilters patience f l r l') : l'.handler = l.handler := by
  cases h <;> rfl

/-- That the filter was installed is recorded first, and last that the current token was given up, if it was. -/
theorem Refilters.record_eq {patience : Nat} {f : Option φ} {l l' : Lexer φ} {r : Except Halt Unit}
    (h : Refilters patience f l r l') :
    ∃ last drawn : List (Event φ), l'.intake.record = last ++ drawn ++ .filterSet f :: l.intake.record ∧
      (∀ e ∈ drawn, e.isDraw = true) ∧ (last = [] ∨ last = [.discarded l.current] ∧ r = .ok ()) := by
  have hasked : ∀ {v : Except Failure Bool} {i : Intake φ}, (l.refiltered f).judge (some l.view) l.current = (v, i) →
      ∃ asked : List (Event φ), (∀ e ∈ asked, e.isDraw = true) ∧
        i.record = asked ++ .filterSet f :: l.intake.record := by
    intro v i hj
    obtain ⟨-, -, -, asked, ha, hr⟩ := Intake.judge_frame hj
    refine ⟨asked, fun e he => ?_, hr⟩
    obtain ⟨g, rfl⟩ := ha e he
    rfl
  cases h with
  | atEnd => exact ⟨[], [], rfl, by simp, .inl rfl⟩
  | failed _ hj =>
    obtain ⟨asked, ha, hr⟩ := hasked hj
    exact ⟨[], asked, hr, ha, .inl rfl⟩
  | kept _ hj =>
    obtain ⟨asked, ha, hr⟩ := hasked hj
    exact ⟨[], asked, hr, ha, .inl rfl⟩
  | replaced _ hj hn =>
    obtain ⟨asked, ha, hr⟩ := hasked hj
    obtain ⟨drawn, hdrawn, hd⟩ := hn.record_eq
    refine ⟨[.discarded l.current], drawn ++ asked, ?_, List.forall_mem_append.2 ⟨hdrawn, ha⟩, .inr ⟨rfl, rfl⟩⟩
    rw [Intake.note_record, hd, hr]
    simp
  | halted _ hj hn =>
    obtain ⟨asked, ha, hr⟩ := hasked hj
    obtain ⟨drawn, hdrawn, hd⟩ := hn.record_eq
    refine ⟨[], drawn ++ asked, ?_, List.forall_mem_append.2 ⟨hdrawn, ha⟩, .inl rfl⟩
    rw [hd, hr]
    simp

/-! ### Calls -/

theorem call_of_passes {l : Lexer φ} {c : Call φ} (h : c.passes l.current = true) (patience : Nat) :
    l.call patience c = ((l.advance patience).1.map fun t => .token (some t), (l.advance patience).2) := by
  cases c with
  | advance => rfl
  | accept group value =>
    simp only [call]
    rw [accept_of_fits patience h]
    cases (l.advance patience).1 <;> rfl
  | expect group value =>
    simp only [call]
    rw [expect_of_fits patience h]
    cases (l.advance patience).1 <;> rfl
  | _ => cases h

/-- A call fails in advancing, by a value without a group, in a handler that is told of a mismatch, in a filter that is
installed, or in draining. -/
theorem call_error {patience : Nat} {l : Lexer φ} {c : Call φ} {e : Halt} (h : (l.call patience c).1 = .error e) :
    (l.advance patience).1 = .error e ∨
      (∃ v, c = .peek none (some v) ∧ e = .failed .valueWithoutGroup) ∨
      (∃ group value, c = .expect group value ∧ l.current.fits group value = false ∧
        let m : Mismatch := ⟨l.current, group, value⟩
        (react patience l.handler m (l.note (.expected m))).1 = .error e) ∨
      (∃ f, c = .filter f ∧ (l.filter patience f).1 = .error e) ∨
      ∃ most, c = .drain most ∧ (l.drain patience most.isSome (most.getD patience)).1 = .error e := by
  by_cases hp : c.passes l.current = true
  · rw [call_of_passes hp] at h
    exact .inl (Halt.map_eq_error_iff.1 h)
  · rw [Bool.not_eq_true] at hp
    cases c with
    | advance => cases hp
    | peek group value =>
      rcases group with _ | g <;> rcases value with _ | v
      · cases h
      · exact .inr (.inl ⟨v, rfl, (Except.error.inj h).symm⟩)
      · cases h
      · cases h
    | accept group value =>
      have h : (l.accept patience group value).1 = .error e := Halt.map_eq_error_iff.1 h
      rw [accept_of_not_fits patience hp] at h
      cases h
    | expect group value =>
      have h : (l.expect patience group value).1 = .error e := Halt.map_eq_error_iff.1 h
      rw [expect_of_not_fits patience hp] at h
      exact .inr (.inr (.inl ⟨group, value, rfl, hp, Halt.map_eq_error_iff.1 h⟩))
    | filter f => exact .inr (.inr (.inr (.inl ⟨f, rfl, Halt.map_eq_error_iff.1 h⟩)))
    | onerror => cases h
    | drain most => exact .inr (.inr (.inr (.inr ⟨most, rfl, Halt.map_eq_error_iff.1 h⟩)))
    | describe => cases h

/-! ### What every operation keeps -/

/-- What holds of an answer: `P` of the lexer after a result, and `Q` of the halt and the lexer after a halt. -/
def Meets (P : Lexer φ → Prop) (Q : Halt → Lexer φ → Prop) {α : Type} (r : Except Halt α) (l : Lexer φ) : Prop :=
  match r with
  | .ok _ => P l
  | .error e => Q e l

omit [Judge φ] in
@[simp] theorem meets_map {P : Lexer φ → Prop} {Q : Halt → Lexer φ → Prop} {α β : Type} {f : α → β} {r : Except Halt α}
    {l : Lexer φ} : Meets P Q (r.map f) l ↔ Meets P Q r l := by
  cases r <;> rfl

omit [Judge φ] in
/-- What goes on after a result goes on from `P`, and what goes on after a failure from `Q`. -/
theorem meets_goOn {P : Lexer φ → Prop} {Q : Halt → Lexer φ → Prop} {α β : Type}
    {next : Except Failure α → Lexer φ → Except Halt β × Lexer φ} {x : Except Halt α × Lexer φ} (hx : Meets P Q x.1 x.2)
    (hok : ∀ a l, P l → Meets P Q (next (.ok a) l).1 (next (.ok a) l).2)
    (herror : ∀ f l, Q (.failed f) l → Meets P Q (next (.error f) l).1 (next (.error f) l).2) :
    Meets P Q (goOn next x).1 (goOn next x).2 := by
  rcases x with ⟨(f | _) | a, l⟩
  · exact herror f l hx
  · exact hx
  · exact hok a l hx

omit [Judge φ] in
/-- If the same holds of all halts, the answer does not matter. -/
theorem meets_self {P : Lexer φ → Prop} {α : Type} {r : Except Halt α} {l : Lexer φ} :
    Meets P (fun _ => P) r l ↔ P l := by
  cases r <;> rfl

/-- A property `P` that advancing keeps, and a property `Q` of what it leaves when it halts. -/
structure Steady (patience : Nat) (P : Lexer φ → Prop) (Q : Halt → Lexer φ → Prop) : Prop where
  stop {l : Lexer φ} (e : Halt) : P l → Q e l
  advance {l l' : Lexer φ} {r : Except Halt Token} : Advances patience l r l' → P l → Meets P Q r l'

namespace Steady

variable {patience : Nat} {P : Lexer φ → Prop} {Q : Halt → Lexer φ → Prop} (h : Steady patience P Q) {l : Lexer φ}
include h

theorem of_advance (hl : P l) : Meets P Q (l.advance patience).1 (l.advance patience).2 :=
  h.advance (l.advance_advances patience) hl

theorem of_skip {stop : Token → Bool} {n : Nat} (hl : P l) :
    Meets P Q (l.skip patience stop n).1 (l.skip patience stop n).2 := by
  induction n generalizing l with
  | zero =>
    unfold skip
    split
    · exact hl
    · exact h.stop _ hl
  | succ n ih =>
    have ha := h.of_advance hl
    unfold skip
    split
    · exact hl
    · rcases hs : l.advance patience with ⟨e | t, l'⟩
      · rw [hs] at ha
        exact ha
      · rw [hs] at ha
        exact ih ha

theorem of_accept {group : String} {value : Option String} (hl : P l) :
    Meets P Q (l.accept patience group value).1 (l.accept patience group value).2 := by
  unfold accept
  split
  · exact meets_map.2 (h.of_advance hl)
  · exact hl

theorem of_drain {most : Bool} {n : Nat} (hl : P l) :
    Meets P Q (l.drain patience most n).1 (l.drain patience most n).2 := by
  induction n generalizing l with
  | zero =>
    unfold drain
    split
    · exact hl
    · cases most with
      | true => exact hl
      | false => exact h.stop _ hl
  | succ n ih =>
    have ha := h.of_advance hl
    unfold drain
    split
    · exact hl
    · rcases hs : l.advance patience with ⟨e | t, l'⟩
      · rw [hs] at ha
        exact ha
      · rw [hs] at ha
        exact meets_map.2 (ih ha)

end Steady

/-- A property `P` that the parts of every operation keep, and a property `Q` of what they leave when they halt. -/
structure Carries (patience : Nat) (P : Lexer φ → Prop) (Q : Halt → Lexer φ → Prop) : Prop where
  stop {l : Lexer φ} (e : Halt) : P l → Q e l
  remark {l : Lexer φ} {e : Event φ} : e.isRemark = true → P l → P (l.note e)
  onerror {l : Lexer φ} (h : Handler φ) : P l → P (l.onerror h)
  become {l : Lexer φ} (h : Handler φ) : P l → P (l.become h)
  advance {l l' : Lexer φ} {r : Except Halt Token} : Advances patience l r l' → P l → Meets P Q r l'
  filter {l l' : Lexer φ} {f : Option φ} {r : Except Halt Unit} : Refilters patience f l r l' → P l → Meets P Q r l'

namespace Carries

variable {patience : Nat} {P : Lexer φ → Prop} {Q : Halt → Lexer φ → Prop} (h : Carries patience P Q) {l : Lexer φ}
include h

theorem steady : Steady patience P Q := ⟨h.stop, h.advance⟩

theorem of_filter {f : Option φ} (hl : P l) : Meets P Q (l.filter patience f).1 (l.filter patience f).2 :=
  h.filter (l.filter_refilters patience f) hl

theorem of_expectOr {react : Mismatch → Lexer φ → Except Halt Unit × Lexer φ}
    (hreact : ∀ m l, P l → Meets P Q (react m l).1 (react m l).2) {group : String} {value : Option String} (hl : P l) :
    Meets P Q (l.expectOr patience react group value).1 (l.expectOr patience react group value).2 := by
  have ha : Meets P Q (l.accept patience group value).1 (l.accept patience group value).2 :=
    h.steady.of_accept hl
  unfold expectOr
  rcases hs : l.accept patience group value with ⟨e | _ | t, l'⟩
  · rw [hs] at ha
    exact ha
  · rw [hs] at ha
    exact meets_map.2 (hreact _ _ (h.remark rfl ha))
  · rw [hs] at ha
    exact ha

theorem of_act {a : Act φ} (hl : P l) : Meets P Q (l.act patience a).1 (l.act patience a).2 := by
  cases a with
  | advance => exact meets_map.2 (h.steady.of_advance hl)
  | skip stop => exact meets_map.2 (h.steady.of_skip hl)
  | filter f => exact meets_map.2 (h.of_filter hl)

/-- A plan that goes on after a failure has to find `P` there. -/
theorem of_carryOut {p : Plan φ} (hp : p.Candid ∨ ∀ f l, Q (.failed f) l → P l) (hl : P l) :
    Meets P Q (carryOut patience p l).1 (carryOut patience p l).2 := by
  induction p using Plan.induct generalizing l with
  | done r =>
    rw [carryOut]
    cases r with
    | ok => exact hl
    | error f => exact h.stop _ hl
  | look next ih =>
    rw [carryOut]
    exact ih _ (hp.imp_left fun hp => by cases hp with | look rest => exact rest _) hl
  | act a next ih =>
    rw [carryOut]
    refine meets_goOn (h.of_act hl) (fun t l hl => ?_) fun f l hq => ?_
    · exact ih _ (hp.imp_left fun hp => by cases hp with | act rest _ => exact rest t) hl
    · rcases hp with hp | resume
      · cases hp with | act _ passed => rw [passed, carryOut]; exact hq
      · exact ih _ (.inr resume) (resume f l hq)
  | onerror g next ih =>
    rw [carryOut]
    exact ih (hp.imp_left fun hp => by cases hp with | onerror rest => exact rest) (h.onerror g hl)
  | become g next ih =>
    rw [carryOut]
    exact ih (hp.imp_left fun hp => by cases hp with | become rest => exact rest) (h.become g hl)
  | expect g group value next ihtold ih =>
    rw [carryOut]
    have hreact : ∀ m l, P l → Meets P Q (react patience g m l).1 (react patience g m l).2 := by
      intro m l hl
      rw [react_eq]
      exact ihtold m (hp.imp_left fun hp => by cases hp with | expect told _ _ => exact told m) (h.remark rfl hl)
    refine meets_goOn (h.of_expectOr hreact (h.become g hl)) (fun t l hl => ?_) fun f l hq => ?_
    · exact ih _ (hp.imp_left fun hp => by cases hp with | expect _ rest _ => exact rest t) hl
    · rcases hp with hp | resume
      · cases hp with | expect _ _ passed => rw [passed, carryOut]; exact hq
      · exact ih _ (.inr resume) (resume f l hq)

theorem of_react {handler : Handler φ} (hh : handler.Candid ∨ ∀ f l, Q (.failed f) l → P l) {m : Mismatch} (hl : P l) :
    Meets P Q (react patience handler m l).1 (react patience handler m l).2 := by
  rw [react_eq]
  exact h.of_carryOut (hh.imp_left fun hh => hh m) (h.remark rfl hl)

theorem of_expect {group : String} {value : Option String}
    (hh : l.current.fits group value = false → l.handler.Candid ∨ ∀ f l, Q (.failed f) l → P l) (hl : P l) :
    Meets P Q (l.expect patience group value).1 (l.expect patience group value).2 := by
  cases hf : l.current.fits group value with
  | true =>
    rw [expect_of_fits patience hf]
    exact meets_map.2 (h.steady.of_advance hl)
  | false =>
    rw [expect_of_not_fits patience hf]
    exact meets_map.2 (h.of_react (hh hf) (h.remark rfl hl))

theorem of_call {c : Call φ} (hc : c.Candid l ∨ ∀ f l, Q (.failed f) l → P l) (hl : P l) :
    Meets P Q (l.call patience c).1 (l.call patience c).2 := by
  cases c with
  | advance => exact meets_map.2 (h.steady.of_advance hl)
  | peek group value =>
    change Meets P Q (((l.peek group value).map Answer.token).mapError Halt.failed) l
    cases l.peek group value with
    | ok => exact hl
    | error f => exact h.stop _ hl
  | accept => exact meets_map.2 (h.steady.of_accept hl)
  | expect group value =>
    exact meets_map.2 (h.of_expect (fun hf => hc.imp_left fun hc => hc _ (Call.mismatch?_of_not_fits hf)) hl)
  | filter => exact meets_map.2 (h.of_filter hl)
  | onerror g => exact h.onerror g hl
  | drain => exact meets_map.2 (h.steady.of_drain hl)
  | describe => exact hl

end Carries

theorem record_carries (patience : Nat) (record : List (Event φ)) :
    Carries patience (fun l => record <:+ l.intake.record) fun _ l => record <:+ l.intake.record where
  stop _ hl := hl
  remark _ hl := hl.trans (List.suffix_cons _ _)
  onerror _ hl := hl.trans (List.suffix_cons _ _)
  become _ hl := hl
  advance {l l' r} ha hl := by
    obtain ⟨drawn, hr, -⟩ := ha.record_eq
    have hs : record <:+ l'.intake.record := by
      rw [hr]
      exact hl.trans ((List.suffix_append _ _).trans (List.suffix_append _ _))
    cases r <;> exact hs
  filter {l l' f r} hf hl := by
    obtain ⟨last, drawn, hr, -⟩ := hf.record_eq
    have hs : record <:+ l'.intake.record := by
      rw [hr]
      exact hl.trans ((List.suffix_cons _ _).trans (List.suffix_append _ _))
    cases r <;> exact hs

/-- Whoever is to be told of a mismatch is on record as told. -/
theorem delivered_of_mismatch {l : Lexer φ} {c : Call φ} {m : Mismatch} (h : c.mismatch? l.current = some m)
    (patience : Nat) : .delivered l.handler m ∈ (l.call patience c).2.intake.record := by
  cases c with
  | expect group value =>
    cases hf : l.current.fits group value with
    | true => simp [Call.mismatch?, hf] at h
    | false =>
      obtain rfl := Option.some.inj ((Call.mismatch?_of_not_fits hf).symm.trans h)
      let told := (l.note (.expected ⟨l.current, group, value⟩)).note (.delivered l.handler ⟨l.current, group, value⟩)
      have hm := (record_carries patience told.intake.record).of_carryOut
        (p := l.handler.plan ⟨l.current, group, value⟩) (.inr fun _ _ hs => hs) (List.suffix_refl _)
      simp only [call]
      rw [expect_of_not_fits patience hf, react_eq]
      exact (meets_self.1 hm).subset List.mem_cons_self
  | _ => cases h

/-- A property that the parts of every operation keep, as long as they halt only in ways of the kind `A`, and failing
is one. -/
structure Stable (patience : Nat) (A : Halt → Prop) (P : Lexer φ → Prop) : Prop where
  failed (f : Failure) : A (.failed f)
  remark {l : Lexer φ} {e : Event φ} : e.isRemark = true → P l → P (l.note e)
  onerror {l : Lexer φ} (h : Handler φ) : P l → P (l.onerror h)
  become {l : Lexer φ} (h : Handler φ) : P l → P (l.become h)
  advance {l l' : Lexer φ} {r : Except Halt Token} : Advances patience l r l' → Halt.Only A r → P l → P l'
  filter {l l' : Lexer φ} {f : Option φ} {r : Except Halt Unit} :
    Refilters patience f l r l' → Halt.Only A r → P l → P l'

namespace Stable

variable {patience : Nat} {A : Halt → Prop} {P : Lexer φ → Prop} (h : Stable patience A P) {l : Lexer φ}
include h

private theorem carries : Carries patience P fun e l => A e → P l where
  stop _ hl _ := hl
  remark := h.remark
  onerror := h.onerror
  become := h.become
  advance {l l' r} ha hl := by
    cases r with
    | ok => exact h.advance ha (Halt.only_ok _) hl
    | error e => exact fun he => h.advance ha (Halt.only_error.2 he) hl
  filter {l l' f r} hf hl := by
    cases r with
    | ok => exact h.filter hf (Halt.only_ok _) hl
    | error e => exact fun he => h.filter hf (Halt.only_error.2 he) hl

theorem of_call {c : Call φ} (hr : Halt.Only A (l.call patience c).1) (hl : P l) : P (l.call patience c).2 := by
  have hm := h.carries.of_call (c := c) (.inr fun f _ hq => hq (h.failed f)) hl
  revert hm hr
  cases (l.call patience c).1 with
  | ok => exact fun _ hm => hm
  | error e => exact fun hr hm => hm (Halt.only_error.1 hr)

theorem of_run {cs : List (Call φ)} (hr : ∀ a ∈ (l.run patience cs).1, Halt.Only A a) (hl : P l) :
    P (l.run patience cs).2 := by
  induction cs generalizing l with
  | nil => exact hl
  | cons c cs ih =>
    have hr : ∀ a ∈ (l.call patience c).1 :: ((l.call patience c).2.run patience cs).1, Halt.Only A a := hr
    rw [List.forall_mem_cons] at hr
    exact ih hr.2 (h.of_call hr.1 hl)

end Stable

end Lexer

end Lookahead
