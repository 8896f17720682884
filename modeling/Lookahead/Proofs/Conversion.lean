import Lookahead.Proofs.Alternatives

/-!
# Matches become tokens

A match becomes a token exactly if a group that has a name took part (`Match.converts_by_participant`). The token is the
group that was closed last, if that has a name, and else the one of those groups that was opened first
(`Match.Decides`); it has the text and the start of this group, so its index is that of a character or of the end.
-/

namespace Lookahead

/-- A token that starts at a character, or at the end, is not refused. -/
theorem Token.make_natCast (group value : String) (index : Nat) (source : Option Source) :
    Token.make group value index source = .ok ⟨group, value, index, source⟩ := by
  simp [make]

namespace Match

variable {m : Match} {k : Nat} {name : String} {s : Span}

/-- The group that was closed last, if any took part. -/
def last? (m : Match) : Option Nat := m.closed.head?.map (·.1)

/-- The text of a group, if it took part: what stands in the text from its start to its end. -/
def textOf (m : Match) (k : Nat) : Option String :=
  (m.span? k).map fun s => String.ofList ((m.text.toList.take s.stop).drop s.start)

/-- Where a group starts. A group that took no part is said to start before the text. -/
def startOf (m : Match) (k : Nat) : Int := (m.span? k).elim (-1) fun s => s.start

/-- The group has a name and took part. -/
def Participates (m : Match) (k : Nat) : Prop := (m.name? k).isSome = true ∧ (m.span? k).isSome = true

/-- The group is the one that a match is known by: it has a name and took part, and it was closed last or else, if the
group that was closed last has no name, it was opened before all others of its kind. -/
def Decides (m : Match) (k : Nat) : Prop :=
  m.Participates k ∧
    (m.last? = some k ∨ (∀ j, m.last? = some j → m.name? j = none) ∧ ∀ j < k, ¬ m.Participates j)

theorem slice_eq (m : Match) (s : Span) : m.slice s = String.ofList ((m.text.toList.take s.stop).drop s.start) := by
  rw [slice, Array.toList_extract, List.extract_eq_take_drop, List.drop_take]

theorem textOf_eq_some (hspan : m.span? k = some s) : m.textOf k = some (m.slice s) := by
  rw [textOf, hspan, slice_eq]
  rfl

theorem not_participates_iff : ¬ m.Participates k ↔ m.name? k = none ∨ m.span? k = none := by
  unfold Participates
  cases m.name? k <;> cases m.span? k <;> simp

/-- The group that was closed last took part. -/
theorem lastNamed_eq_some_iff :
    m.lastNamed = some (name, s) ↔ ∃ k, m.last? = some k ∧ m.name? k = some name ∧ m.span? k = some s := by
  unfold lastNamed last? span?
  cases m.closed with
  | nil => simp
  | cons c closed =>
    have hspan : List.lookup c.1 (c :: closed) = some c.2 := List.lookup_cons_self
    cases hname : m.name? c.1 <;> simp [hname, hspan]

theorem lastNamed_eq_none_iff : m.lastNamed = none ↔ ∀ k, m.last? = some k → m.name? k = none := by
  unfold lastNamed last?
  cases m.closed with
  | nil => simp
  | cons c closed => simp

theorem head?_participants_eq_some_iff :
    m.participants.head? = some (name, s) ↔
      ∃ k, m.name? k = some name ∧ m.span? k = some s ∧ ∀ j < k, ¬ m.Participates j := by
  constructor
  · intro h
    unfold participants at h
    rw [List.head?_filterMap, List.findSome?_eq_some_iff, List.range_eq_range'] at h
    obtain ⟨before, k, after, hsplit, hk, hbefore⟩ := h
    -- The groups before the first one of its kind are all that were opened before it.
    obtain ⟨n, -, rfl, hrest⟩ := List.range'_eq_append_iff.1 hsplit
    obtain ⟨hn, -⟩ := List.range'_eq_cons_iff.1 hrest.symm
    obtain rfl : n = k := by omega
    obtain ⟨name', hname, hk⟩ := Option.bind_eq_some_iff.1 hk
    obtain ⟨s', hspan, hk⟩ := Option.bind_eq_some_iff.1 hk
    cases hk
    refine ⟨n, hname, hspan, fun j hj => not_participates_iff.2 ?_⟩
    have hnone := hbefore j (by simpa [List.mem_range'_1] using hj)
    cases hj' : m.name? j with
    | none => exact .inl rfl
    | some _ =>
      cases hs' : m.span? j with
      | none => exact .inr rfl
      | some _ => simp [hj', hs'] at hnone
  · rintro ⟨k, hname, hspan, hfirst⟩
    exact head?_participants (Option.join_eq_some_iff.1 hname) hspan fun j hj => not_participates_iff.1 (hfirst j hj)

/-- A match is classified by the group that decides. -/
theorem classify_eq_some_iff :
    m.classify = some (name, s) ↔ ∃ k, m.Decides k ∧ m.name? k = some name ∧ m.span? k = some s := by
  have participates : ∀ {k}, m.name? k = some name → m.span? k = some s → m.Participates k := fun hname hspan =>
    ⟨Option.isSome_of_eq_some hname, Option.isSome_of_eq_some hspan⟩
  unfold classify
  rw [Option.or_eq_some_iff, lastNamed_eq_none_iff, lastNamed_eq_some_iff, head?_participants_eq_some_iff]
  constructor
  · rintro (⟨k, hlast, hname, hspan⟩ | ⟨hlast, k, hname, hspan, hfirst⟩)
    · exact ⟨k, ⟨participates hname hspan, .inl hlast⟩, hname, hspan⟩
    · exact ⟨k, ⟨participates hname hspan, .inr ⟨hlast, hfirst⟩⟩, hname, hspan⟩
  · rintro ⟨k, ⟨-, hlast | ⟨hlast, hfirst⟩⟩, hname, hspan⟩
    · exact .inl ⟨k, hlast, hname, hspan⟩
    · exact .inr ⟨hlast, k, hname, hspan, hfirst⟩

theorem classify_eq_none_iff : m.classify = none ↔ ∀ k, ¬ m.Participates k := by
  constructor
  · intro h k hk
    obtain ⟨name, hname⟩ := Option.isSome_iff_exists.1 hk.1
    obtain ⟨s, hspan⟩ := Option.isSome_iff_exists.1 hk.2
    have hlt : k < m.names.length := (List.getElem?_eq_some_iff.1 (Option.join_eq_some_iff.1 hname)).1
    have hmem : (name, s) ∈ m.participants :=
      List.mem_filterMap.2 ⟨k, List.mem_range.2 hlt, by simp [hname, hspan]⟩
    rw [List.head?_eq_none_iff.1 (Option.or_eq_none_iff.1 h).2] at hmem
    cases hmem
  · intro h
    rw [Option.eq_none_iff_forall_ne_some]
    rintro ⟨name, s⟩ hc
    obtain ⟨k, ⟨hk, -⟩, -⟩ := classify_eq_some_iff.1 hc
    exact h k hk

theorem convert_of_nobody (h : ∀ k, ¬ m.Participates k) (source : Option Source) :
    (Raw.matched m).convert source = .error (.anonymousMatch m.whole m.span.start) := by
  change (m.token source).map some = _
  unfold token
  rw [classify_eq_none_iff.2 h]
  rfl

theorem exists_decides (h : ¬ ∀ k, ¬ m.Participates k) :
    ∃ k name value, m.Decides k ∧ m.name? k = some name ∧ m.textOf k = some value := by
  rw [← classify_eq_none_iff] at h
  obtain ⟨⟨name, s⟩, hc⟩ := Option.ne_none_iff_exists'.1 h
  obtain ⟨k, hk, hname, hspan⟩ := classify_eq_some_iff.1 hc
  exact ⟨k, name, m.slice s, hk, hname, textOf_eq_some hspan⟩

/-- The group that decides makes the token, and is not refused for its start. -/
theorem convert_of_decides {value : String} (hk : m.Decides k) (hname : m.name? k = some name)
    (hvalue : m.textOf k = some value) (source : Option Source) :
    ∃ t, Token.make name value (m.startOf k) source = .ok t ∧ (Raw.matched m).convert source = .ok (some t) := by
  obtain ⟨s, hspan⟩ := Option.isSome_iff_exists.1 hk.1.2
  obtain rfl := Option.some.inj ((textOf_eq_some hspan).symm.trans hvalue)
  have hclassify : m.classify = some (name, s) := classify_eq_some_iff.2 ⟨k, hk, hname, hspan⟩
  refine ⟨⟨name, m.slice s, s.start, source⟩, ?_, ?_⟩
  · rw [startOf, hspan]
    exact Token.make_natCast name (m.slice s) s.start source
  · change (m.token source).map some = _
    unfold token
    rw [hclassify]
    rfl

/-- A match is converted without a failure exactly if a group that has a name took part, and fails in one way only, which
tells the text of the match. Its token is the group that decides, with the text and the start of this group; no token is
refused for its start. -/
theorem converts_by_participant (m : Match) (source : Option Source) :
    let answer := (Raw.matched m).convert source
    let whole := String.ofList ((m.text.toList.take m.span.stop).drop m.span.start)
    let failure : Failure := .anonymousMatch whole m.span.start
    ((∃ f, answer = .error f) ↔ ∀ k, ¬ m.Participates k) ∧
      (∀ f, answer = .error f → f = failure) ∧
      failure.message =
        "Match " ++ Text.quote whole ++ " at " ++ toString m.span.start ++ " has no named group" ∧
      (∀ t?, answer = .ok t? → ∃ t, t? = some t) ∧
      ∀ t, answer = .ok (some t) ↔
        ∃ k name value, m.Decides k ∧ m.name? k = some name ∧ m.textOf k = some value ∧
          Token.make name value (m.startOf k) source = .ok t := by
  intro answer whole failure
  have hwhole : m.whole = whole := m.slice_eq m.span
  have hfailed : (∀ k, ¬ m.Participates k) → answer = .error failure := by
    intro h
    rw [show failure = .anonymousMatch m.whole m.span.start by rw [hwhole]]
    exact convert_of_nobody h source
  have hmade : (¬ ∀ k, ¬ m.Participates k) → ∃ t, answer = .ok (some t) := by
    intro h
    obtain ⟨k, name, value, hk, hname, hvalue⟩ := exists_decides h
    obtain ⟨t, -, ht⟩ := convert_of_decides hk hname hvalue source
    exact ⟨t, ht⟩
  refine ⟨⟨?_, fun h => ⟨failure, hfailed h⟩⟩, fun f hf => ?_, rfl, fun t? ht => ?_, fun t => ⟨fun ht => ?_, ?_⟩⟩
  · rintro ⟨f, hf⟩
    refine Classical.byContradiction fun h => ?_
    obtain ⟨t, ht⟩ := hmade h
    cases hf.symm.trans ht
  · by_cases h : ∀ k, ¬ m.Participates k
    · exact Except.error.inj (hf.symm.trans (hfailed h))
    · obtain ⟨t, ht⟩ := hmade h
      cases hf.symm.trans ht
  · by_cases h : ∀ k, ¬ m.Participates k
    · cases ht.symm.trans (hfailed h)
    · obtain ⟨t, ht'⟩ := hmade h
      exact ⟨t, Except.ok.inj (ht.symm.trans ht')⟩
  · have h : ¬ ∀ k, ¬ m.Participates k := by
      intro h
      cases ht.symm.trans (hfailed h)
    obtain ⟨k, name, value, hk, hname, hvalue⟩ := exists_decides h
    obtain ⟨t', hmake, ht'⟩ := convert_of_decides hk hname hvalue source
    obtain rfl := Option.some.inj (Except.ok.inj (ht.symm.trans ht'))
    exact ⟨k, name, value, hk, hname, hvalue, hmake⟩
  · rintro ⟨k, name, value, hk, hname, hvalue, hmake⟩
    obtain ⟨t', hmake', ht'⟩ := convert_of_decides hk hname hvalue source
    obtain rfl := Except.ok.inj (hmake.symm.trans hmake')
    exact ht'

/-- The group that was closed last has no name, so the first one that has a name decides; where it has a name, it does;
and where no group has a name, the match is refused. -/
theorem converts_by_participant_of_three :
    let text := "key=42;".toList.toArray
    let outer : Match := ⟨text, ⟨0, 7⟩, [none, some "key", some "value"], [(0, ⟨0, 7⟩), (2, ⟨4, 6⟩), (1, ⟨0, 3⟩)]⟩
    let inner : Match := ⟨text, ⟨0, 7⟩, [some "key", some "value"], [(1, ⟨4, 6⟩), (0, ⟨0, 3⟩)]⟩
    let unnamed : Match := ⟨text, ⟨4, 6⟩, [none], [(0, ⟨4, 6⟩)]⟩
    (Raw.matched outer).convert none = .ok (some ⟨"key", "key", 0, none⟩) ∧
      (Raw.matched inner).convert none = .ok (some ⟨"value", "42", 4, none⟩) ∧
      ∃ f, (Raw.matched unnamed).convert none = .error f ∧ f.message = "Match '42' at 4 has no named group" := by
  intro text outer inner unnamed
  have houter : outer.Decides 1 := by
    refine ⟨⟨rfl, rfl⟩, .inr ⟨fun j hj => ?_, fun j hj => ?_⟩⟩
    · obtain rfl := Option.some.inj hj
      rfl
    · obtain rfl : j = 0 := by omega
      rintro ⟨h, -⟩
      cases h
  have hinner : inner.Decides 1 := ⟨⟨rfl, rfl⟩, .inl rfl⟩
  have hnobody : ∀ k, ¬ unnamed.Participates k := by
    rintro (_ | k) ⟨h, -⟩
    · cases h
    · cases h
  refine ⟨?_, ?_, ?_⟩
  · exact ((converts_by_participant outer none).2.2.2.2 _).2 ⟨1, "key", "key", houter, rfl, by decide +kernel, rfl⟩
  · exact ((converts_by_participant inner none).2.2.2.2 _).2 ⟨1, "value", "42", hinner, rfl, by decide +kernel, rfl⟩
  · obtain ⟨hiff, honly, hmessage, -⟩ := converts_by_participant unnamed none
    obtain ⟨f, hf⟩ := hiff.2 hnobody
    refine ⟨f, hf, ?_⟩
    rw [honly f hf, hmessage]
    decide +kernel

end Match

end Lookahead
