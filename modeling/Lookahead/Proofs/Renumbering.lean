import Lookahead.Regex.Run

/-!
# Renumbering groups

The numbers of groups do not matter: an expression whose groups and references have other numbers, no two of them the
same, matches in the same way, and closes the same groups under their other numbers (`Regex.run_renumber`).
-/

namespace Lookahead.Regex

/-- The expression with other numbers for its groups. -/
def renumber (f : Nat → Nat) : Regex Nat Nat → Regex Nat Nat
  | empty => empty
  | one set => one set
  | anchor a => anchor a
  | seq a b => seq (a.renumber f) (b.renumber f)
  | alt a b => alt (a.renumber f) (b.renumber f)
  | group g a => group (f g) (a.renumber f)
  | look positive a => look positive (a.renumber f)
  | back g ignoreCase => back (f g) ignoreCase
  | rep a min max greedy => rep (a.renumber f) min max greedy

/-- The place with other numbers for the groups that were closed on the way. -/
def Spot.renumber (f : Nat → Nat) (s : Spot) : Spot := { s with closed := s.closed.map fun c => (f c.1, c.2) }

theorem lookup_renumber {f : Nat → Nat} (inj : ∀ {i j}, f i = f j → i = j) (closed : List (Nat × Span)) (g : Nat) :
    (closed.map fun c => (f c.1, c.2)).lookup (f g) = closed.lookup g := by
  induction closed with
  | nil => rfl
  | cons c closed ih =>
    rw [List.map_cons, List.lookup_cons, List.lookup_cons, ih]
    by_cases h : g = c.1
    · rw [h, beq_self_eq_true, beq_self_eq_true]
    · rw [beq_false_of_ne h, beq_false_of_ne fun hf => h (inj hf)]

/-- Two attempts do the same up to the numbers of groups, if what follows does. -/
def Renumbers (f : Nat → Nat) (step step' : Attempt) : Prop :=
  ∀ (F : Spot → Spot) (k k' : Spot → Option Spot), (∀ t, k' (t.renumber f) = (k t).map F) →
    ∀ s, step' (s.renumber f) k' = (step s k).map F

namespace Renumbers

variable {f : Nat → Nat} {step step' : Attempt}

theorem exactly (h : Renumbers f step step') (n : Nat) : Renumbers f (exactly step n) (Regex.exactly step' n) := by
  induction n with
  | zero => exact fun F k k' hk s => hk s
  | succ n ih => exact fun F k k' hk s => h F _ _ (fun t => ih F k k' hk t) s

theorem upToMost (h : Renumbers f step step') (n : Nat) (last : Option Nat) :
    Renumbers f (upToMost step n last) (Regex.upToMost step' n last) := by
  induction n generalizing last with
  | zero => exact fun F k k' hk s => hk s
  | succ n ih =>
    intro F k k' hk s
    unfold Regex.upToMost
    change (if last = some s.pos then _ else _) = _
    split
    · exact hk s
    · rw [Option.map_or, hk s]
      exact congrArg (Option.or · _) (h F _ _ (fun t => ih _ F k k' hk t) s)

theorem upToLeast (h : Renumbers f step step') (n : Nat) (last : Option Nat) :
    Renumbers f (upToLeast step n last) (Regex.upToLeast step' n last) := by
  induction n generalizing last with
  | zero => exact fun F k k' hk s => hk s
  | succ n ih =>
    intro F k k' hk s
    unfold Regex.upToLeast
    rw [Option.map_or, hk s]
    congr 1
    change (if last = some s.pos then _ else _) = _
    split
    · rfl
    · exact h F _ _ (fun t => ih _ F k k' hk t) s

end Renumbers

/-- An expression with other numbers for its groups does the same up to these numbers. -/
theorem run_renumber {f : Nat → Nat} (inj : ∀ {i j}, f i = f j → i = j) (text : Array Char) (r : Regex Nat Nat) :
    Renumbers f (run text r) (run text (r.renumber f)) := by
  induction r with
  | empty => exact fun F k k' hk s => hk s
  | one set =>
    intro F k k' hk s
    unfold renumber run
    rw [show (s.renumber f).pos = s.pos from rfl]
    cases text[s.pos]? with
    | none => rfl
    | some c =>
      dsimp only
      split
      · exact hk { s with pos := s.pos + 1 }
      · rfl
  | anchor a =>
    intro F k k' hk s
    unfold renumber run
    change (if a.holds text s.pos then _ else _) = _
    split
    · exact hk s
    · rfl
  | seq a b iha ihb => exact fun F k k' hk s => iha F _ _ (fun t => ihb F k k' hk t) s
  | alt a b iha ihb =>
    intro F k k' hk s
    rw [renumber, run_alt, run_alt, iha F k k' hk s, ihb F k k' hk s, Option.map_or]
  | group g a ih =>
    intro F k k' hk s
    rw [renumber, run_group, run_group]
    exact ih F _ _ (fun t => hk { t with closed := (g, ⟨s.pos, t.pos⟩) :: t.closed }) s
  | look positive a ih =>
    intro F k k' hk s
    have h := ih (Spot.renumber f) some some (fun t => rfl) s
    cases positive with
    | true =>
      unfold renumber run
      rw [h]
      cases run text a s some with
      | none => rfl
      | some t => exact hk { t with pos := s.pos }
    | false =>
      unfold renumber run
      rw [h]
      cases run text a s some with
      | none => exact hk s
      | some t => rfl
  | back g ignoreCase =>
    intro F k k' hk s
    unfold renumber run
    rw [show (s.renumber f).closed.lookup (f g) = s.closed.lookup g from lookup_renumber inj s.closed g]
    cases s.closed.lookup g with
    | none => rfl
    | some w =>
      change (if repeated text ignoreCase w s.pos = true then _ else _) = Option.map F (if _ then _ else _)
      split
      · exact hk { s with pos := s.pos + (w.stop - w.start) }
      · rfl
  | rep a min max greedy ih =>
    intro F k k' hk s
    refine ih.exactly min F _ _ (fun t => ?_) s
    change (if greedy = true then Regex.upToMost _ (spare text min max t.pos) none _ _ else _) = _
    split
    · exact ih.upToMost _ none F k k' hk t
    · exact ih.upToLeast _ none F k k' hk t

end Lookahead.Regex
