import Lookahead.Regex.Run

/-!
# Ways to match

`Leads text r s t` says that some way to match `r` goes from the place `s` to the place `t`; how often a repeat goes
round is left open, and so is what a negative look rules out. Whatever comes of an attempt, its continuation gave at a
place that a way leads to (`Leads.of_run`). So what every way keeps, every match has: positions do not go back and stay
in the text, and the groups that are closed on a way are groups of the expression, which lie on the way unless a look
encloses them (`Leads.closes`), and in the text in any case (`Leads.within`).
-/

namespace Lookahead

/-- The stretch is one of a text of the given size. -/
def Span.Within (w : Span) (size : Nat) : Prop := w.start ≤ w.stop ∧ w.stop ≤ size

end Lookahead

namespace Lookahead.Regex

/-- The groups of an expression, in order of opening. -/
def groups {γ ρ : Type} : Regex γ ρ → List γ
  | seq a b => a.groups ++ b.groups
  | alt a b => a.groups ++ b.groups
  | group g a => g :: a.groups
  | look _ a => a.groups
  | rep a _ _ _ => a.groups
  | _ => []

/-- The groups that lie inside a look. -/
def lookedAt {γ ρ : Type} : Regex γ ρ → List γ
  | seq a b => a.lookedAt ++ b.lookedAt
  | alt a b => a.lookedAt ++ b.lookedAt
  | group _ a => a.lookedAt
  | look _ a => a.groups
  | rep a _ _ _ => a.lookedAt
  | _ => []

/-- Some way to match leads from one place to another. -/
inductive Leads (text : Array Char) : Regex Nat Nat → Spot → Spot → Prop
  | empty (s : Spot) : Leads text .empty s s
  | one {set : CharSet} {s : Spot} {c : Char} (h : text[s.pos]? = some c) :
      Leads text (.one set) s { s with pos := s.pos + 1 }
  | anchor (a : Anchor) (s : Spot) : Leads text (.anchor a) s s
  | seq {a b : Regex Nat Nat} {s t u : Spot} (h : Leads text a s t) (h' : Leads text b t u) :
      Leads text (.seq a b) s u
  | left {a : Regex Nat Nat} (b : Regex Nat Nat) {s t : Spot} (h : Leads text a s t) : Leads text (.alt a b) s t
  | right (a : Regex Nat Nat) {b : Regex Nat Nat} {s t : Spot} (h : Leads text b s t) : Leads text (.alt a b) s t
  | group (g : Nat) {a : Regex Nat Nat} {s t : Spot} (h : Leads text a s t) :
      Leads text (.group g a) s { t with closed := (g, ⟨s.pos, t.pos⟩) :: t.closed }
  | ahead {a : Regex Nat Nat} {s t : Spot} (h : Leads text a s t) :
      Leads text (.look true a) s { t with pos := s.pos }
  | averted (a : Regex Nat Nat) (s : Spot) : Leads text (.look false a) s s
  | back {g : Nat} {ignoreCase : Bool} {s : Spot} {w : Span} (h : repeated text ignoreCase w s.pos = true) :
      Leads text (.back g ignoreCase) s { s with pos := s.pos + (w.stop - w.start) }
  | done (a : Regex Nat Nat) (min : Nat) (max : Option Nat) (greedy : Bool) (s : Spot) :
      Leads text (.rep a min max greedy) s s
  | again {a : Regex Nat Nat} {min : Nat} {max : Option Nat} {greedy : Bool} {s t u : Spot} (h : Leads text a s t)
      (h' : Leads text (.rep a min max greedy) t u) : Leads text (.rep a min max greedy) s u

/-- No step goes back, and the groups closed on the way are among the given ones; those that are not `enclosed` lie on
the way. -/
structure Closes (groups enclosed : List Nat) (s t : Spot) : Prop where
  pos_le : s.pos ≤ t.pos
  closed_eq : ∃ new, t.closed = new ++ s.closed ∧ ∀ c ∈ new, c.1 ∈ groups ∧
    (c.1 ∉ enclosed → s.pos ≤ c.2.start ∧ c.2.start ≤ c.2.stop ∧ c.2.stop ≤ t.pos)

namespace Closes

variable {gs gs' es es' : List Nat} {s t u : Spot}

theorem of_pos_le {p : Nat} (h : s.pos ≤ p) : Closes gs es s { s with pos := p } := ⟨h, [], rfl, by simp⟩

theorem refl (gs es : List Nat) (s : Spot) : Closes gs es s s := ⟨Nat.le_refl _, [], rfl, by simp⟩

theorem mono (h : Closes gs es s t) (hg : gs ⊆ gs') (he : es ⊆ es') : Closes gs' es' s t := by
  obtain ⟨new, hn, hnew⟩ := h.closed_eq
  exact ⟨h.pos_le, new, hn, fun c hc => ⟨hg (hnew c hc).1, fun hl => (hnew c hc).2 fun hm => hl (he hm)⟩⟩

theorem trans (h : Closes gs es s t) (h' : Closes gs es t u) : Closes gs es s u := by
  obtain ⟨new, hn, hnew⟩ := h.closed_eq
  obtain ⟨new', hn', hnew'⟩ := h'.closed_eq
  refine ⟨Nat.le_trans h.pos_le h'.pos_le, new' ++ new, by rw [hn', hn, List.append_assoc], ?_⟩
  refine List.forall_mem_append.2 ⟨fun c hc => ⟨(hnew' c hc).1, fun hl => ?_⟩, fun c hc => ⟨(hnew c hc).1, fun hl => ?_⟩⟩
  · obtain ⟨h₁, h₂, h₃⟩ := (hnew' c hc).2 hl
    exact ⟨Nat.le_trans h.pos_le h₁, h₂, h₃⟩
  · obtain ⟨h₁, h₂, h₃⟩ := (hnew c hc).2 hl
    exact ⟨h₁, h₂, Nat.le_trans h₃ h'.pos_le⟩

theorem group (h : Closes gs es s t) (g : Nat) :
    Closes (g :: gs) es s { t with closed := (g, ⟨s.pos, t.pos⟩) :: t.closed } := by
  obtain ⟨new, hn, hnew⟩ := h.closed_eq
  refine ⟨h.pos_le, (g, ⟨s.pos, t.pos⟩) :: new, by rw [hn, List.cons_append], List.forall_mem_cons.2 ⟨?_, ?_⟩⟩
  · exact ⟨List.mem_cons_self, fun _ => ⟨Nat.le_refl _, h.pos_le, Nat.le_refl _⟩⟩
  · exact fun c hc => ⟨List.mem_cons_of_mem _ (hnew c hc).1, (hnew c hc).2⟩

/-- Where all groups are enclosed, nothing is said about where they lie, and one may go back to the start. -/
theorem ahead (h : Closes gs es s t) : Closes gs gs s { t with pos := s.pos } := by
  obtain ⟨new, hn, hnew⟩ := h.closed_eq
  exact ⟨Nat.le_refl _, new, hn, fun c hc => ⟨(hnew c hc).1, fun hl => absurd (hnew c hc).1 hl⟩⟩

end Closes

/-! ### Attempts and ways -/

/-- What comes of an attempt, its continuation gave at a place that is related to the first one. -/
def Sound (step : Attempt) (R : Spot → Spot → Prop) : Prop :=
  ∀ s k u, step s k = some u → ∃ t, R s t ∧ k t = some u

section Loops

variable {step : Attempt} {R S : Spot → Spot → Prop}

theorem sound_exactly (hstep : Sound step R) (done : ∀ s, S s s) (again : ∀ {s t u}, R s t → S t u → S s u) (n : Nat) :
    Sound (exactly step n) S := by
  induction n with
  | zero => exact fun s _ _ h => ⟨s, done s, h⟩
  | succ n ih =>
    intro s k u h
    obtain ⟨t, hst, h⟩ := hstep _ _ _ h
    obtain ⟨v, htv, h⟩ := ih _ _ _ h
    exact ⟨v, again hst htv, h⟩

theorem sound_upToMost (hstep : Sound step R) (done : ∀ s, S s s) (again : ∀ {s t u}, R s t → S t u → S s u) (n : Nat)
    (last : Option Nat) : Sound (upToMost step n last) S := by
  induction n generalizing last with
  | zero => exact fun s _ _ h => ⟨s, done s, h⟩
  | succ n ih =>
    intro s k u h
    unfold upToMost at h
    split at h
    · exact ⟨s, done s, h⟩
    · rcases Option.or_eq_some_iff.1 h with h | ⟨-, h⟩
      · obtain ⟨t, hst, h⟩ := hstep _ _ _ h
        obtain ⟨v, htv, h⟩ := ih _ _ _ _ h
        exact ⟨v, again hst htv, h⟩
      · exact ⟨s, done s, h⟩

theorem sound_upToLeast (hstep : Sound step R) (done : ∀ s, S s s) (again : ∀ {s t u}, R s t → S t u → S s u) (n : Nat)
    (last : Option Nat) : Sound (upToLeast step n last) S := by
  induction n generalizing last with
  | zero => exact fun s _ _ h => ⟨s, done s, h⟩
  | succ n ih =>
    intro s k u h
    unfold upToLeast at h
    rcases Option.or_eq_some_iff.1 h with h | ⟨-, h⟩
    · exact ⟨s, done s, h⟩
    · split at h
      · cases h
      · obtain ⟨t, hst, h⟩ := hstep _ _ _ h
        obtain ⟨v, htv, h⟩ := ih _ _ _ _ h
        exact ⟨v, again hst htv, h⟩

end Loops

namespace Leads

variable {text : Array Char} {r a : Regex Nat Nat} {s t u : Spot}

theorem rep_trans {min : Nat} {max : Option Nat} {greedy : Bool} (h : Leads text (.rep a min max greedy) s t)
    (h' : Leads text (.rep a min max greedy) t u) : Leads text (.rep a min max greedy) s u := by
  generalize hr : Regex.rep a min max greedy = r at h
  induction h with
  | done =>
    cases hr
    exact h'
  | again hst _ _ ih =>
    cases hr
    exact .again hst (ih h' rfl)
  | _ => cases hr

/-- What comes of an attempt, its continuation gave at a place that some way leads to. -/
theorem of_run (text : Array Char) (r : Regex Nat Nat) : Sound (run text r) (Leads text r) := by
  induction r with
  | empty => exact fun s _ _ h => ⟨s, .empty s, h⟩
  | one set =>
    intro s k u h
    unfold run at h
    split at h
    next c hc =>
      split at h
      · exact ⟨_, .one hc, h⟩
      · cases h
    · cases h
  | anchor a =>
    intro s k u h
    unfold run at h
    split at h
    · exact ⟨s, .anchor a s, h⟩
    · cases h
  | seq a b iha ihb =>
    intro s k u h
    obtain ⟨t, hst, h⟩ := iha _ _ _ h
    obtain ⟨v, htv, h⟩ := ihb _ _ _ h
    exact ⟨v, .seq hst htv, h⟩
  | alt a b iha ihb =>
    intro s k u h
    rw [run_alt] at h
    rcases Option.or_eq_some_iff.1 h with h | ⟨-, h⟩
    · obtain ⟨t, hst, h⟩ := iha _ _ _ h
      exact ⟨t, .left b hst, h⟩
    · obtain ⟨t, hst, h⟩ := ihb _ _ _ h
      exact ⟨t, .right a hst, h⟩
  | group g a ih =>
    intro s k u h
    obtain ⟨t, hst, h⟩ := ih _ _ _ h
    exact ⟨_, .group g hst, h⟩
  | look positive a ih =>
    intro s k u h
    cases positive with
    | true =>
      unfold run at h
      split at h
      next t ht =>
        obtain ⟨v, hsv, hv⟩ := ih _ _ _ ht
        cases hv
        exact ⟨_, .ahead hsv, h⟩
      · cases h
    | false =>
      unfold run at h
      split at h
      · cases h
      · exact ⟨s, .averted a s, h⟩
  | back g ignoreCase =>
    intro s k u h
    unfold run at h
    split at h
    · split at h
      next hw => exact ⟨_, .back hw, h⟩
      · cases h
    · cases h
  | rep a min max greedy ih =>
    intro s k u h
    have done (s : Spot) : Leads text (.rep a min max greedy) s s := .done a min max greedy s
    have again {s t u : Spot} (h : Leads text a s t) (h' : Leads text (.rep a min max greedy) t u) := Leads.again h h'
    obtain ⟨t, hst, h⟩ := sound_exactly ih done again min _ _ _ h
    split at h
    · obtain ⟨v, htv, h⟩ := sound_upToMost ih done again _ _ _ _ _ h
      exact ⟨v, hst.rep_trans htv, h⟩
    · obtain ⟨v, htv, h⟩ := sound_upToLeast ih done again _ _ _ _ _ h
      exact ⟨v, hst.rep_trans htv, h⟩

/-! ### What ways keep -/

theorem closes (h : Leads text r s t) : Closes r.groups r.lookedAt s t := by
  induction h with
  | seq _ _ ih ih' =>
    exact (ih.mono (List.subset_append_left ..) (List.subset_append_left ..)).trans
      (ih'.mono (List.subset_append_right ..) (List.subset_append_right ..))
  | left _ _ ih => exact ih.mono (List.subset_append_left ..) (List.subset_append_left ..)
  | right _ _ ih => exact ih.mono (List.subset_append_right ..) (List.subset_append_right ..)
  | group g _ ih => exact ih.group g
  | ahead _ ih => exact ih.ahead
  | again _ _ ih ih' => exact ih.trans ih'
  | one => exact .of_pos_le (Nat.le_succ _)
  | back => exact .of_pos_le (Nat.le_add_right _ _)
  | _ => exact .refl ..

/-- What stands at a place of the text ends in the text. -/
theorem le_size_of_repeated {ignoreCase : Bool} {w : Span} {i : Nat} (h : repeated text ignoreCase w i = true)
    (hi : i ≤ text.size) : i + (w.stop - w.start) ≤ text.size := by
  rcases Nat.eq_zero_or_pos (w.stop - w.start) with hw | hw
  · omega
  · -- Its last character is a character of the text.
    have hlast := List.all_eq_true.1 h (w.stop - w.start - 1) (List.mem_range.2 (by omega))
    unfold agree at hlast
    split at hlast
    next d _ hd =>
      have := (Array.getElem?_eq_some_iff.1 hd).1
      omega
    · cases hlast

theorem le_size (h : Leads text r s t) (hs : s.pos ≤ text.size) : t.pos ≤ text.size := by
  induction h with
  | one hc => exact (Array.getElem?_eq_some_iff.1 hc).1
  | seq _ _ ih ih' => exact ih' (ih hs)
  | left _ _ ih => exact ih hs
  | right _ _ ih => exact ih hs
  | group _ _ ih => exact ih hs
  | again _ _ ih ih' => exact ih' (ih hs)
  | back hw => exact le_size_of_repeated hw hs
  | _ => exact hs

/-- A group that is closed on a way lies in the text, also if a look encloses it. -/
theorem within (h : Leads text r s t) (hs : s.pos ≤ text.size) (hclosed : ∀ c ∈ s.closed, c.2.Within text.size) :
    ∀ c ∈ t.closed, c.2.Within text.size := by
  induction h with
  | seq h _ ih ih' => exact ih' (h.le_size hs) (ih hs hclosed)
  | left _ _ ih => exact ih hs hclosed
  | right _ _ ih => exact ih hs hclosed
  | group g h ih => exact List.forall_mem_cons.2 ⟨⟨h.closes.pos_le, h.le_size hs⟩, ih hs hclosed⟩
  | ahead _ ih => exact ih hs hclosed
  | again h _ ih ih' => exact ih' (h.le_size hs) (ih hs hclosed)
  | _ => exact hclosed

end Leads

end Lookahead.Regex
