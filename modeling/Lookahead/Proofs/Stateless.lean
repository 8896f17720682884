import Lookahead.Proofs.Operations
import Lookahead.Filter.Rule

/-!
# Filters without a state

If the filter in force answers from the token alone, then what becomes of an item is a function of the item
(`Pull.fate`), and a pull changes nothing but the position in the feed and whether the end was found.
-/

namespace Lookahead

namespace Fate

/-- Nothing is read after an item with this fate. -/
def isEnd : Fate → Bool
  | ended => true
  | _ => false

/-- The failure with which the item is lost. -/
def failure? : Fate → Option Failure
  | lost f => some f
  | _ => none

/-- The token of the item, if it is kept. -/
def token? : Fate → Option Token
  | kept t => some t
  | _ => none

end Fate

variable {φ : Type}

namespace Intake

theorem putFilter_self {i : Intake φ} {f : φ} (h : i.filter = some f) : i.putFilter f = i := by
  rcases i with ⟨source, feed, common, _ | own, exhausted, record⟩
  · cases h
    rfl
  · cases h
    rfl

theorem filter_congr {i j : Intake φ} (hc : j.common = i.common) (ha : j.active = i.active) :
    j.filter = i.filter := by
  unfold filter
  rw [hc, ha]

end Intake

variable [Judge φ]

/-- The filter answers from the token alone, and does not change. -/
def Judge.Stateless (p : Option φ) : Prop := ∀ f ∈ p, ∀ view t, judge f view t = ((judge f none t).1, f)

/-- What a filter without a state says about a token. -/
def Judge.verdict : Option φ → Token → Except Failure Bool
  | none, _ => .ok true
  | some f, t => (judge f none t).1

/-- What becomes of an item in a lexer over the text `s` with the filter `p`. -/
def Pull.fate (s : Source) (p : Option φ) (a : Pull) : Fate :=
  match a.read s with
  | .error f => .lost f
  | .ok none => .ended
  | .ok (some t) =>
    match Judge.verdict p t with
    | .error f => .lost f
    | .ok true => .kept t
    | .ok false => .rejected t

namespace Intake

variable {view : Option View} {i j : Intake φ}

theorem judge_of_stateless (h : Judge.Stateless i.filter) (view : Option View) (t : Token) :
    ∃ asked, i.judge view t = (Judge.verdict i.filter t, { i with record := asked ++ i.record }) := by
  cases hf : i.filter with
  | none => exact ⟨[], by rw [judge_of_none hf]; rfl⟩
  | some f =>
    have hj := h f hf view t
    refine ⟨[.judged f t (Judge.verdict (some f) t)], ?_⟩
    rw [judge_of_some hf, hj, putFilter_self hf]
    rfl

private theorem judged_of_stateless (h : Judge.Stateless i.filter) {t : Token} {v : Except Failure Bool} {k : Intake φ}
    (hv : i.onward.judge view t = (v, k)) :
    Judge.verdict i.filter t = v ∧ k.common = i.common ∧ k.active = i.active := by
  obtain ⟨asked, ha⟩ := judge_of_stateless (i := i.onward) h view t
  obtain ⟨hverdict, rfl⟩ := Prod.mk.inj (ha.symm.trans hv)
  exact ⟨hverdict, rfl, rfl⟩

/-- A pull has the fate of its item, and leaves the filter as it is. -/
theorem Draws.of_stateless {fate : Fate} (d : Draws view i fate j) (h : Judge.Stateless i.filter) :
    fate = i.feed.next.1.fate i.source i.filter ∧ j.common = i.common ∧ j.active = i.active := by
  cases d with
  | ended hu =>
    have hu : i.feed.next.1.read i.source = .ok none := hu
    exact ⟨by rw [Pull.fate, hu], rfl, rfl⟩
  | unread hu =>
    have hu : i.feed.next.1.read i.source = .error _ := hu
    exact ⟨by rw [Pull.fate, hu], rfl, rfl⟩
  | unjudged hu hv =>
    have hu : i.feed.next.1.read i.source = .ok (some _) := hu
    obtain ⟨hverdict, hc, ha⟩ := judged_of_stateless h hv
    exact ⟨by rw [Pull.fate, hu]; simp only [hverdict], hc, ha⟩
  | rejected hu hv =>
    have hu : i.feed.next.1.read i.source = .ok (some _) := hu
    obtain ⟨hverdict, hc, ha⟩ := judged_of_stateless h hv
    exact ⟨by rw [Pull.fate, hu]; simp only [hverdict], hc, ha⟩
  | kept hu hv =>
    have hu : i.feed.next.1.read i.source = .ok (some _) := hu
    obtain ⟨hverdict, hc, ha⟩ := judged_of_stateless h hv
    exact ⟨by rw [Pull.fate, hu]; simp only [hverdict], hc, ha⟩

theorem Fetches.of_stateless {n : Nat} {r : Except Halt Token} (h : Fetches view n i r j)
    (hi : Judge.Stateless i.filter) : j.common = i.common ∧ j.active = i.active := by
  induction h with
  | exhausted => exact ⟨rfl, rfl⟩
  | impatient => exact ⟨rfl, rfl⟩
  | ended _ d => exact (d.of_stateless hi).2
  | lost _ d => exact (d.of_stateless hi).2
  | kept _ d => exact (d.of_stateless hi).2
  | rejected _ d _ ih =>
    obtain ⟨-, hc, ha⟩ := d.of_stateless hi
    obtain ⟨hc', ha'⟩ := ih (by rw [filter_congr hc ha]; exact hi)
    exact ⟨hc'.trans hc, ha'.trans ha⟩

end Intake

/-! ### Rules -/

/-- The rule neither counts nor remembers, and does not look at the lexer. -/
def Rule.isStateless : Rule → Bool
  | not r => r.isStateless
  | both r s => r.isStateless && s.isStateless
  | either r s => r.isStateless && s.isStateless
  | every _ _ => false
  | first _ _ => false
  | fresh _ => false
  | unlikeCurrent => false
  | unlikePrevious => false
  | _ => true

theorem Rule.judge_of_isStateless {r : Rule} (h : r.isStateless = true) (t : Token) :
    ∃ v, ∀ view, r.judge view t = (v, r) := by
  induction r with
  | not r ih =>
    obtain ⟨v, hj⟩ := ih h
    cases v with
    | error f => exact ⟨.error f, fun view => by rw [judge, hj]⟩
    | ok b => exact ⟨.ok !b, fun view => by rw [judge, hj]⟩
  | both r s ihr ihs =>
    simp only [isStateless, Bool.and_eq_true] at h
    obtain ⟨v, hr⟩ := ihr h.1
    obtain ⟨w, hs⟩ := ihs h.2
    rcases v with f | _ | _
    · exact ⟨.error f, fun view => by rw [judge, hr]⟩
    · exact ⟨.ok false, fun view => by rw [judge, hr]⟩
    · exact ⟨w, fun view => by rw [judge, hr, hs]⟩
  | either r s ihr ihs =>
    simp only [isStateless, Bool.and_eq_true] at h
    obtain ⟨v, hr⟩ := ihr h.1
    obtain ⟨w, hs⟩ := ihs h.2
    rcases v with f | _ | _
    · exact ⟨.error f, fun view => by rw [judge, hr]⟩
    · exact ⟨w, fun view => by rw [judge, hr, hs]⟩
    · exact ⟨.ok true, fun view => by rw [judge, hr]⟩
  | every => cases h
  | first => cases h
  | fresh => cases h
  | unlikeCurrent => cases h
  | unlikePrevious => cases h
  | _ => exact ⟨_, fun view => rfl⟩

theorem Filter.stateless {f : Filter} (h : f.rule.isStateless = true) : Judge.Stateless (some f) := by
  rintro g ⟨⟩ view t
  obtain ⟨v, hv⟩ := Rule.judge_of_isStateless h t
  have hj : ∀ view, Judge.judge f view t = (v, f) := by
    intro view
    rw [Filter.judge_eq, hv]
  rw [hj, hj]

/-- A filter whose rule has no state. -/
structure StatelessFilter where
  filter : Filter
  stateless : filter.rule.isStateless = true

instance : Judge StatelessFilter where
  label f := f.filter.label
  judge f view t := ((Judge.judge f.filter view t).1, f)

theorem StatelessFilter.judge_eq (f : StatelessFilter) (view : Option View) (t : Token) :
    Judge.judge f view t = ((Judge.judge f none t).1, f) := by
  have h := f.filter.stateless f.stateless f.filter rfl view t
  change ((Judge.judge f.filter view t).1, f) = _
  rw [h]
  rfl

end Lookahead
