import Mathlib.Algebra.Ring.Nat
import Lookahead.Mismatch

/-!
# The wording of unmet expectations

The report on an unmet expectation has four lines and one more for each line end in the texts that were put into it. If
there is none, and what was asked for is a group without double quotes, then all that the report is about can be read
off it (`Mismatch.message_unambiguous`), although nothing is escaped: the first line gives the value that was met, which
tells in the third where the group before it ends; and in the second line the first double quote, if there is one, ends
the group that was asked for and begins its value.
-/

namespace Lookahead

namespace Text

/-- How many line ends a text has. -/
def lineEnds (s : String) : Nat := s.toList.count '\n'

/-- The lines of a text, which are separated by the line ends. -/
def lines (s : String) : List String := (s.split '\n').toList.map String.Slice.copy

theorem lineEnds_eq_zero_iff {s : String} : lineEnds s = 0 ↔ '\n' ∉ s.toList := List.count_eq_zero

theorem lineEnds_append (s t : String) : lineEnds (s ++ t) = lineEnds s + lineEnds t := by
  unfold lineEnds
  rw [String.toList_append, List.count_append]

theorem lineEnds_repr (n : Nat) : lineEnds n.repr = 0 := by
  rw [lineEnds_eq_zero_iff, Nat.toList_repr]
  intro h
  have hdigit : '\n'.isDigit = true := Nat.isDigit_of_mem_toDigits (by decide) (by decide) h
  cases hdigit

/-- Lines are joined by one line end less than there are lines. -/
theorem lineEnds_intercalate (l : String) (ls : List String) :
    lineEnds ("\n".intercalate (l :: ls)) = ((l :: ls).map lineEnds).sum + ls.length := by
  induction ls generalizing l with
  | nil => rw [String.intercalate_singleton]; rfl
  | cons l' ls ih =>
    have hbreak : lineEnds "\n" = 1 := rfl
    rw [String.intercalate_cons_cons, lineEnds_append, lineEnds_append, ih, hbreak]
    simp only [List.map_cons, List.sum_cons, List.length_cons]
    omega

private theorem length_splitOn (c : Char) (cs : List Char) : (cs.splitOn c).length = cs.count c + 1 := by
  induction cs with
  | nil => rfl
  | cons d cs ih =>
    rw [List.splitOn_cons_eq_if_modifyHead, List.count_cons]
    split
    · rw [List.length_cons, ih]
    · rw [List.length_modifyHead, ih, Nat.add_zero]

theorem length_lines (s : String) : (lines s).length = lineEnds s + 1 := by
  unfold lines
  rw [String.toList_split_char, List.length_map, length_splitOn]
  rfl

/-- Lines that are joined by line ends can be taken apart again. -/
theorem lines_intercalate {ls : List String} (hne : ls ≠ []) (h : ∀ l ∈ ls, lineEnds l = 0) :
    lines ("\n".intercalate ls) = ls :=
  (String.toList_split_intercalate fun l hl => lineEnds_eq_zero_iff.1 (h l hl)).trans (if_neg hne)

/-- Numbers are written differently. -/
theorem toString_injective {m n : Nat} (h : toString m = toString n) : m = n := by
  have hdigits : Nat.toDigits 10 m = Nat.toDigits 10 n := by
    rw [← Nat.toList_repr, ← Nat.toList_repr, ← Nat.toString_eq_repr, ← Nat.toString_eq_repr, h]
  calc m = Nat.ofDigitChars 10 (Nat.toDigits 10 m) 0 := Nat.ofDigitChars_ten_toDigits.symm
    _ = Nat.ofDigitChars 10 (Nat.toDigits 10 n) 0 := by rw [hdigits]
    _ = n := Nat.ofDigitChars_ten_toDigits

end Text

namespace Mismatch

open Text

variable {m m' : Mismatch}

/-- No text in the report has a line end. -/
def Unbroken (m : Mismatch) : Prop :=
  '\n' ∉ m.token.value.toList ∧ '\n' ∉ m.token.group.toList ∧ '\n' ∉ m.group.toList ∧ ∀ v ∈ m.value, '\n' ∉ v.toList

/-- The line ends that were put into the report; the value that was met is put in twice. -/
def breaks (m : Mismatch) : Nat :=
  2 * lineEnds m.token.value + lineEnds m.token.group + lineEnds m.group + m.value.elim 0 lineEnds

theorem unbroken_iff : m.Unbroken ↔ m.breaks = 0 := by
  unfold Unbroken breaks
  simp only [← lineEnds_eq_zero_iff]
  cases m.value with
  | none =>
    simp only [Option.mem_def, reduceCtorEq, false_implies, implies_true, and_true, Option.elim_none]
    omega
  | some v =>
    simp only [Option.mem_def, Option.some.injEq, forall_eq', Option.elim_some]
    omega

private theorem lineEnds_expected (m : Mismatch) :
    lineEnds m.expected = lineEnds m.group + m.value.elim 0 lineEnds := by
  unfold expected
  cases m.value with
  | none => rfl
  | some v =>
    have hopening : lineEnds " \"" = 0 := rfl
    have hclosing : lineEnds "\"" = 0 := rfl
    simp [lineEnds_append, hopening, hclosing]

/-- The line ends in the four lines come from the texts that were put into them. -/
private theorem map_lineEnds_lines (m : Mismatch) :
    m.lines.map Text.lineEnds = [lineEnds m.token.value, lineEnds m.group + m.value.elim 0 lineEnds,
      lineEnds m.token.group + lineEnds m.token.value, 0] := by
  have hfirst : lineEnds "Unexpected token: " = 0 := rfl
  have hsecond : lineEnds "        expected: " = 0 := rfl
  have hthird : lineEnds "    but received: " = 0 := rfl
  have hfourth : lineEnds "     at position: " = 0 := rfl
  have hopening : lineEnds " \"" = 0 := rfl
  have hclosing : lineEnds "\"" = 0 := rfl
  simp [lines, lineEnds_append, lineEnds_expected, lineEnds_repr, hfirst, hsecond, hthird, hfourth, hopening,
    hclosing]

theorem lineEnds_message (m : Mismatch) : lineEnds m.message = 3 + m.breaks := by
  have hjoin : lineEnds m.message = (m.lines.map Text.lineEnds).sum + 3 := lineEnds_intercalate _ _
  rw [hjoin, map_lineEnds_lines, breaks]
  simp only [List.sum_cons, List.sum_nil]
  omega

theorem Unbroken.lines_message (h : m.Unbroken) : Text.lines m.message = m.lines := by
  refine lines_intercalate (by simp [lines]) fun l hl => ?_
  have hmem : lineEnds l ∈ m.lines.map Text.lineEnds := List.mem_map_of_mem hl
  have hbreaks : m.breaks = 0 := unbroken_iff.1 h
  unfold breaks at hbreaks
  simp only [map_lineEnds_lines, List.mem_cons, List.not_mem_nil, or_false] at hmem
  rcases hmem with h | h | h | h <;> omega

/-! ### Reading a report -/

/-- The first double quote of what was asked for ends its group, if that has none. -/
private theorem group_of_expected (h : '"' ∉ m.group.toList) :
    m.expected.toList.takeWhile (· != '"') = m.group.toList ++ m.value.elim [] fun _ => [' '] := by
  have hgroup : ∀ c ∈ m.group.toList, (c != '"') = true := by
    intro c hc
    rw [bne_iff_ne]
    rintro rfl
    exact h hc
  unfold expected
  cases m.value with
  | none =>
    change m.group.toList.takeWhile (· != '"') = m.group.toList ++ []
    have htake : (m.group.toList ++ []).takeWhile (· != '"') = m.group.toList ++ [] :=
      List.takeWhile_append_of_pos hgroup
    rw [List.append_nil] at htake ⊢
    exact htake
  | some v =>
    have hsplit : (m.group ++ " \"" ++ v ++ "\"").toList = m.group.toList ++ (' ' :: '"' :: (v.toList ++ ['"'])) := by
      simp
    change (m.group ++ " \"" ++ v ++ "\"").toList.takeWhile (· != '"') = _
    rw [hsplit, List.takeWhile_append_of_pos hgroup]
    rfl

theorem expected_injective (hq : '"' ∉ m.group.toList) (hq' : '"' ∉ m'.group.toList) (h : m.expected = m'.expected) :
    m.group = m'.group ∧ m.value = m'.value := by
  have hread : m.group.toList ++ (m.value.elim [] fun _ => [' ']) =
      m'.group.toList ++ m'.value.elim [] fun _ => [' '] := by
    rw [← group_of_expected hq, ← group_of_expected hq', h]
  -- A group alone has no double quote, and a value always has some around it.
  have hnone : ∀ n : Mismatch, '"' ∉ n.group.toList → n.value = none → '"' ∉ n.expected.toList := by
    intro n hn hv
    unfold expected
    rw [hv]
    exact hn
  have hsome : ∀ (n : Mismatch) (v : String), n.value = some v → '"' ∈ n.expected.toList := by
    intro n v hv
    unfold expected
    rw [hv]
    simp
  cases hv : m.value with
  | none =>
    cases hv' : m'.value with
    | none =>
      rw [hv, hv'] at hread
      exact ⟨String.toList_inj.1 (List.append_cancel_right hread), rfl⟩
    | some v' => exact absurd (h ▸ hsome m' v' hv') (hnone m hq hv)
  | some v =>
    cases hv' : m'.value with
    | none => exact absurd (h ▸ hsome m v hv) (hnone m' hq' hv')
    | some v' =>
      rw [hv, hv'] at hread
      have hgroup : m.group = m'.group := String.toList_inj.1 (List.append_cancel_right hread)
      refine ⟨hgroup, congrArg some ?_⟩
      unfold expected at h
      rw [hv, hv', hgroup] at h
      have h : m'.group ++ " \"" ++ v ++ "\"" = m'.group ++ " \"" ++ v' ++ "\"" := h
      rwa [String.append_left_inj, String.append_right_inj] at h

/-- The four lines tell what was met and what was asked for. -/
private theorem lines_injective (hq : '"' ∉ m.group.toList) (hq' : '"' ∉ m'.group.toList) (h : m.lines = m'.lines) :
    m.group = m'.group ∧ m.value = m'.value ∧ m.token.Same m'.token := by
  unfold lines at h
  simp only [List.cons.injEq, and_true, String.append_right_inj] at h
  obtain ⟨hvalue, hexpected, hreceived, hindex⟩ := h
  obtain ⟨hgroup, hwanted⟩ := expected_injective hq hq' hexpected
  rw [hvalue, String.append_left_inj, String.append_left_inj, String.append_left_inj, String.append_right_inj]
    at hreceived
  exact ⟨hgroup, hwanted, hreceived, hvalue, toString_injective hindex⟩

/-- The report splits at its line ends into four lines and one more for each line end in the texts put into it; so it
has the four lines exactly if none of these has one. Of reports in four lines about groups without double quotes, those
on the same are the same: the group and the value that were asked for, and the token that was met. -/
theorem message_unambiguous (m m' : Mismatch) :
    (Text.lines m.message).length = 4 + 2 * lineEnds m.token.value + lineEnds m.token.group +
      lineEnds m.group + m.value.elim 0 lineEnds ∧
    (Text.lines m.message = m.lines ↔ m.Unbroken) ∧
    (m.Unbroken → m'.Unbroken → '"' ∉ m.group.toList → '"' ∉ m'.group.toList →
      (m.message = m'.message ↔ m.group = m'.group ∧ m.value = m'.value ∧ m.token.Same m'.token)) := by
  have hlength : (Text.lines m.message).length = 4 + m.breaks := by
    rw [length_lines, lineEnds_message]
    omega
  refine ⟨?_, ⟨fun h => ?_, fun h => h.lines_message⟩, fun hm hm' hq hq' => ⟨fun h => ?_, ?_⟩⟩
  · rw [hlength, breaks]
    omega
  · have hfour : m.lines.length = 4 := rfl
    rw [← h, hlength] at hfour
    exact unbroken_iff.2 (by omega)
  · refine lines_injective hq hq' ?_
    rw [← hm.lines_message, ← hm'.lines_message, h]
  · rintro ⟨hgroup, hvalue, htoken⟩
    unfold message lines expected
    rw [hgroup, hvalue, htoken.1, htoken.2.1, htoken.2.2]

/-- Two tokens that are received on the same line, and a value that is missing or empty; and a value with a line end. -/
theorem message_unambiguous_of_lookalikes :
    let split : Mismatch := ⟨⟨"word", "a\" \"b", 3, none⟩, "number", none⟩
    let joined : Mismatch := ⟨⟨"word \"a\"", "b", 3, none⟩, "number", none⟩
    let empty : Mismatch := { split with value := some "" }
    let broken : Mismatch := ⟨⟨"text", "a\nb", 0, none⟩, "number", none⟩
    split.Unbroken ∧ joined.Unbroken ∧ empty.Unbroken ∧ split.lines[2]? = joined.lines[2]? ∧
      split.message ≠ joined.message ∧ split.message ≠ empty.message ∧ (Text.lines broken.message).length = 6 := by
  intro split joined empty broken
  have hsplit : split.Unbroken := unbroken_iff.2 (by decide)
  have hjoined : joined.Unbroken := unbroken_iff.2 (by decide)
  have hempty : empty.Unbroken := unbroken_iff.2 (by decide)
  have hquote : '"' ∉ split.group.toList := by decide
  refine ⟨hsplit, hjoined, hempty, by decide, fun h => ?_, fun h => ?_, ?_⟩
  · obtain ⟨-, -, hgroup, -⟩ := ((message_unambiguous split joined).2.2 hsplit hjoined hquote hquote).1 h
    exact absurd hgroup (by decide)
  · obtain ⟨-, hvalue, -⟩ := ((message_unambiguous split empty).2.2 hsplit hempty hquote hquote).1 h
    cases hvalue
  · rw [(message_unambiguous broken broken).1]
    decide

end Mismatch

end Lookahead
