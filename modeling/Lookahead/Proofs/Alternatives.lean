import Mathlib.Control.Monad.Basic
import Lookahead.Tokenizer
import Lookahead.Proofs.Reading
import Lookahead.Proofs.Wrapping

/-!
# Named alternatives

A pattern that consists of named groups with bars between them classifies a match by the group that matched
(`Tokenizer.named_alternatives`): the whole match is a token of this group, whatever other groups inside of it took
part. Its group is the one that was closed last. Inside another group it is not, but then it is the first one that was
opened, so the tokens are the same.
-/

namespace Lookahead

/-- The alternatives at the top of an expression, in order of preference. -/
def Regex.branches {γ ρ : Type} : Regex γ ρ → List (Regex γ ρ)
  | alt a b => a :: b.branches
  | r => [r]

/-- Where an expression matches, one of its alternatives does, and none that is preferred to it. -/
theorem Regex.run_branches {text : Array Char} {r : Regex Nat Nat} {s u : Spot} {k : Spot → Option Spot}
    (h : run text r s k = some u) :
    ∃ (i : Nat) (b : Regex Nat Nat), r.branches[i]? = some b ∧ run text b s k = some u ∧
      ∀ j < i, ∀ b', r.branches[j]? = some b' → run text b' s k = none := by
  induction r with
  | alt a b _ ih =>
    rw [run_alt] at h
    rcases Option.or_eq_some_iff.1 h with h | ⟨hnone, h⟩
    · exact ⟨0, a, rfl, h, fun j hj => absurd hj (Nat.not_lt_zero j)⟩
    · obtain ⟨i, b', hb, hrun, hfirst⟩ := ih h
      refine ⟨i + 1, b', hb, hrun, fun j hj b'' hb'' => ?_⟩
      cases j with
      | zero =>
        cases hb''
        exact hnone
      | succ j => exact hfirst j (Nat.lt_of_succ_lt_succ hj) b'' hb''
  | _ => exact ⟨0, _, rfl, h, fun j hj => absurd hj (Nat.not_lt_zero j)⟩

namespace Pattern

namespace Choice

/-- An expression is the alternative with numbers for its groups, where the groups have these names. -/
structure Numbered (a : Choice) (names : List (Option String)) (number : Nat) (body : Regex Nat Nat) : Prop where
  name_eq : names[number]? = some (some a.name)
  number_eq : ∃ n n', n.names.length = number + 1 ∧ Node.number a.node n = .ok (body, n')

/-- The groups inside of an alternative are opened after its own. -/
theorem Numbered.lt_of_mem {a : Choice} {names : List (Option String)} {number : Nat} {body : Regex Nat Nat}
    (h : a.Numbered names number body) {g : Nat} (hg : g ∈ body.groups) : number < g := by
  obtain ⟨n, n', hn, h⟩ := h.number_eq
  rw [(Numbers.of_number h).opens.numbers_eq, hn] at hg
  exact (List.mem_range'_1.1 hg).1

theorem Numbered.append {a : Choice} {names : List (Option String)} {number : Nat} {body : Regex Nat Nat}
    (h : a.Numbered names number body) (more : List (Option String)) : a.Numbered (names ++ more) number body := by
  refine ⟨?_, h.number_eq⟩
  rw [List.getElem?_append_left (List.getElem?_eq_some_iff.1 h.name_eq).1]
  exact h.name_eq

theorem numbered_of_row {a : Choice} {n n' : Numbering} {r : Regex Nat Nat} (h : Numbers n a.row r n') :
    ∃ number body, r = .seq (.group number body) .empty ∧ a.Numbered n'.names number body := by
  unfold row at h
  cases h with
  | seq h h' =>
    cases h' with
    | empty =>
      cases h with
      | @group _ _ a' _ n₁ n₂ he h =>
        cases Numbering.enter_eq_ok he
        refine ⟨_, _, rfl, ?_, _, _, ?_, h.number_eq⟩
        · change n₂.names[n.names.length]? = some (some a.name)
          rw [h.opens.names_eq, List.getElem?_append_left (by simp), List.getElem?_concat_length]
        · exact List.length_append

/-- The alternatives at the top of an alternation are the named groups. -/
theorem branches_of_union {as : List Choice} (hne : as ≠ []) {n n' : Numbering} {r : Regex Nat Nat}
    (h : Numbers n (union as) r n') {i : Nat} {b : Regex Nat Nat} (hb : r.branches[i]? = some b) :
    ∃ a number body, as[i]? = some a ∧ b = .seq (.group number body) .empty ∧ a.Numbered n'.names number body := by
  induction as generalizing n r i with
  | nil => exact absurd rfl hne
  | cons a as ih =>
    cases as with
    | nil =>
      obtain ⟨number, body, rfl, hnumbered⟩ := numbered_of_row h
      cases i with
      | zero =>
        cases hb
        exact ⟨a, number, body, rfl, rfl, hnumbered⟩
      | succ i => cases hb
    | cons a' as =>
      cases h with
      | @alt _ _ _ _ _ n₁ _ h h' =>
        cases i with
        | zero =>
          cases hb
          obtain ⟨number, body, rfl, hnumbered⟩ := numbered_of_row h
          refine ⟨a, number, body, rfl, rfl, ?_⟩
          rw [h'.opens.names_eq]
          exact hnumbered.append _
        | succ i => exact ih (List.cons_ne_nil _ _) h' hb

theorem not_mem_targets_union {as : List Choice} {t : Reference} (h : ∀ a ∈ as, t ∉ a.node.targets) :
    t ∉ (union as).targets := by
  induction as with
  | nil => exact List.not_mem_nil
  | cons a as ih =>
    have ha : t ∉ a.row.targets := by
      change t ∉ a.node.targets ++ []
      rw [List.append_nil]
      exact h a List.mem_cons_self
    cases as with
    | nil => exact ha
    | cons b as =>
      intro ht
      rcases List.mem_append.1 ht with ht | ht
      · exact ha ht
      · exact ih (fun a ha => h a (List.mem_cons_of_mem _ ha)) ht

end Choice

/-- The pattern with one of its alternatives only. -/
def only (p : Pattern) (b : Regex Nat Nat) : Pattern := { p with regex := b }

/-- At a position, a pattern matches as the first of its alternatives that does. -/
theorem matchAt_branches {p : Pattern} {input : Array Char} {fresh : Bool} {pos : Nat} {m : Match}
    (h : p.matchAt input fresh pos = some m) :
    ∃ (i : Nat) (b : Regex Nat Nat), p.regex.branches[i]? = some b ∧ (p.only b).matchAt input fresh pos = some m ∧
      ∀ j < i, ∀ b', p.regex.branches[j]? = some b' → (p.only b').matchAt input fresh pos = none := by
  obtain ⟨u, hu, rfl⟩ := Option.map_eq_some_iff.1 h
  obtain ⟨i, b, hb, hrun, hfirst⟩ := Regex.run_branches hu
  exact ⟨i, b, hb, congrArg (Option.map _) hrun, fun j hj b' hb' => congrArg (Option.map _) (hfirst j hj b' hb')⟩

/-- In the match of a group, the group was closed last. -/
theorem closed_of_matchAt_group {p : Pattern} {number : Nat} {body : Regex Nat Nat} {input : Array Char} {fresh : Bool}
    {pos : Nat} {m : Match} (h : (p.only (.seq (.group number body) .empty)).matchAt input fresh pos = some m) :
    ∃ inner, m.closed = (number, m.span) :: inner ∧ ∀ c ∈ inner, c.1 ∈ body.groups := by
  obtain ⟨-, -, hstart, hleads⟩ := matchAt_eq_some h
  obtain ⟨text, ⟨start, stop⟩, names, closed⟩ := m
  cases hleads with
  | seq hgroup hempty =>
    cases hempty
    cases hgroup with
    | group _ hbody =>
      obtain ⟨inner, hinner, hgroups⟩ := hbody.closes.closed_eq
      dsimp only at hstart hinner ⊢
      rw [List.append_nil] at hinner
      refine ⟨inner, ?_, fun c hc => (hgroups c hc).1⟩
      rw [hinner, hstart]

end Pattern

namespace Match

/-- The group that was closed last gives the token, if it has a name. -/
theorem token_of_lastNamed {m : Match} {group : String} {s : Span} (h : m.lastNamed = some (group, s))
    (source : Option Source) : m.token source = .ok ⟨group, m.slice s, s.start, source⟩ := by
  unfold token classify
  rw [h]
  rfl

theorem lastNamed_of_closed {m : Match} {k : Nat} {group : String} {s : Span} {inner : List (Nat × Span)}
    (hname : m.names[k]? = some (some group)) (hclosed : m.closed = (k, s) :: inner) :
    m.lastNamed = some (group, s) := by
  unfold lastNamed name?
  rw [hclosed, List.head?_cons, Option.bind_some]
  dsimp only
  rw [hname]
  rfl

/-- Where no group that was opened earlier took part, a group that took part and has a name is the first one. -/
theorem head?_participants {m : Match} {k : Nat} {group : String} {s : Span} (hname : m.names[k]? = some (some group))
    (hspan : m.span? k = some s) (hfirst : ∀ j < k, m.name? j = none ∨ m.span? j = none) :
    m.participants.head? = some (group, s) := by
  have hk := (List.getElem?_eq_some_iff.1 hname).1
  have hsplit : List.range m.names.length = List.range k ++ k :: List.range' (k + 1) (m.names.length - k - 1) := by
    rw [List.range_eq_range', List.range_eq_range', ← List.range'_succ, show m.names.length - k - 1 + 1 =
      m.names.length - k by omega]
    have h := @List.range'_append_1 0 k (m.names.length - k)
    rw [Nat.zero_add, Nat.add_sub_cancel' (Nat.le_of_lt hk)] at h
    exact h.symm
  have hbefore : ∀ j ∈ List.range k, (do
      let name ← m.name? j
      let s ← m.span? j
      return (name, s) : Option (String × Span)) = none := by
    intro j hj
    rcases hfirst j (List.mem_range.1 hj) with h | h
    · rw [h]
      rfl
    · rw [h]
      cases m.name? j <;> rfl
  unfold participants
  rw [hsplit, List.filterMap_append, List.filterMap_eq_nil_iff.2 hbefore, List.nil_append, List.filterMap_cons]
  simp only [name?, hname, hspan, Option.join_some, bind, Option.bind, pure, List.head?_cons]

/-- Inside of a group without a name, too, the outermost named group gives the token. -/
theorem token_under {m : Match} {number : Nat} {group : String} {inner : List (Nat × Span)}
    (hname : m.names[number]? = some (some group)) (hclosed : m.closed = (number, m.span) :: inner)
    (hinner : ∀ c ∈ inner, number < c.1) (source : Option Source) :
    m.under.lastNamed = none ∧ m.under.token source = m.token source := by
  have hlast : m.under.lastNamed = none := rfl
  have hspan : m.under.span? (number + 1) = some m.span := by
    change List.lookup (number + 1) ((0, m.span) :: m.closed.map fun c => (c.1 + 1, c.2)) = _
    rw [hclosed, List.lookup_cons, beq_false_of_ne (Nat.succ_ne_zero number), List.map_cons, List.lookup_cons,
      beq_self_eq_true]
  have hfirst : ∀ j < number + 1, m.under.name? j = none ∨ m.under.span? j = none := by
    intro j hj
    cases j with
    | zero => exact .inl rfl
    | succ j =>
      -- No group that was opened before the outermost named one took part, but for the one around all.
      right
      refine List.lookup_eq_none_iff.2 fun c hc => ?_
      rcases List.mem_cons.1 hc with rfl | hc
      · exact bne_iff_ne.2 (Nat.succ_ne_zero j)
      · obtain ⟨d, hd, rfl⟩ := List.mem_map.1 hc
        rw [hclosed] at hd
        refine bne_iff_ne.2 (Nat.ne_of_lt (Nat.lt_of_lt_of_le hj ?_))
        rcases List.mem_cons.1 hd with rfl | hd
        · exact Nat.le_refl _
        · exact Nat.succ_le_succ (Nat.le_of_lt (hinner d hd))
  have hhead : m.under.participants.head? = some (group, m.span) := head?_participants hname hspan hfirst
  refine ⟨hlast, ?_⟩
  rw [token_of_lastNamed (lastNamed_of_closed hname hclosed)]
  unfold token classify
  rw [hlast, hhead]
  rfl

end Match

/-- A match comes from an alternative: the pattern matches so with this alternative only, and with none of those before
it. -/
def Pattern.ComesFrom (p : Pattern) (as : List Choice) (input : String) (m : Match) (a : Choice) : Prop :=
  ∃ (i number : Nat) (body : Regex Nat Nat) (fresh : Bool),
    as[i]? = some a ∧ p.regex.branches[i]? = some (.seq (.group number body) .empty) ∧ a.Numbered p.names number body ∧
      (p.only (.seq (.group number body) .empty)).matchAt input.toList.toArray fresh m.span.start = some m ∧
      ∀ j < i, ∀ b, p.regex.branches[j]? = some b →
        (p.only b).matchAt input.toList.toArray fresh m.span.start = none

namespace Recipe

open Pattern (Options)

theorem pattern_eq_ok {text : String} {o : Options} {p : Pattern} :
    (Recipe.text text).pattern o = .ok p ↔ Pattern.compile text o = .ok p ∧ p.namesGroups = true := by
  unfold pattern
  dsimp only
  cases Pattern.compile text o with
  | error f => exact ⟨(fun h => by cases h), fun h => by cases h.1⟩
  | ok q =>
    constructor
    · intro h
      change (if q.namesGroups = true then _ else _) = _ at h
      split at h
      next hq =>
        cases h
        exact ⟨rfl, hq⟩
      · cases h
    · rintro ⟨h, hp⟩
      cases h
      exact if_pos hp

end Recipe

namespace Pattern

open Choice (joined union)

variable {o : Options} {text : String} {as : List Choice} {p : Pattern}

/-- The groups of a pattern of named alternatives. -/
theorem numbers_of_written (written : Piece.ofText o text.toList = .ok (joined as)) (h : compile text o = .ok p) :
    ∃ n, Numbers {} (union as) p.regex n ∧ p.names = n.names := by
  obtain ⟨ps, node, r, n, hps, hnode, hn, rfl⟩ := compile_eq_ok.1 h
  cases hps.symm.trans written
  cases hnode.symm.trans (Choice.ofPieces_joined as)
  exact ⟨n, hn, rfl⟩

/-- A match of a pattern of named alternatives comes from one of them: its group was closed last, and all other groups
that took part are inside of it. -/
theorem match_of_written (written : Piece.ofText o text.toList = .ok (joined as)) (h : compile text o = .ok p)
    (hne : as ≠ []) {input : String} {m : Match} (hm : m ∈ p.scan input) :
    ∃ (a : Choice) (number : Nat) (inner : List (Nat × Span)), p.ComesFrom as input m a ∧
      m.names[number]? = some (some a.name) ∧ m.closed = (number, m.span) :: inner ∧ ∀ c ∈ inner, number < c.1 := by
  obtain ⟨n, hn, hnames⟩ := numbers_of_written written h
  obtain ⟨fresh, hmatch, -⟩ := matchAt_of_mem_scan hm
  obtain ⟨i, b, hb, hbranch, hfirst⟩ := matchAt_branches hmatch
  obtain ⟨a, number, body, ha, rfl, hnumbered⟩ := Choice.branches_of_union hne hn hb
  rw [← hnames] at hnumbered
  obtain ⟨inner, hclosed, hinner⟩ := closed_of_matchAt_group hbranch
  refine ⟨a, number, inner, ⟨i, number, body, fresh, ha, hb, hnumbered, hbranch, hfirst⟩, ?_, hclosed, fun c hc => ?_⟩
  · rw [(matchAt_eq_some hmatch).2.1]
    exact hnumbered.name_eq
  · exact hnumbered.lt_of_mem (hinner c hc)

end Pattern

namespace Tokenizer

open Pattern
open Pattern.Choice (joined union)

/-- A pattern of named alternatives makes each match a token of the alternative that it comes from, which has the whole
text of the match. Between parentheses it makes the same tokens, though no match has a name for the group closed last. -/
theorem named_alternatives {o : Options} {text : String} {as : List Choice} {p : Pattern}
    (written : Piece.ofText o text.toList = .ok (joined as)) (accepted : (Recipe.text text).pattern o = .ok p) :
    (∀ input source, ∀ m ∈ p.scan input, ∃ a ∈ as, p.ComesFrom as input m a ∧
        m.lastNamed = some (a.name, m.span) ∧
        (Raw.matched m).convert source = .ok (some ⟨a.name, m.whole, m.span.start, source⟩)) ∧
      ((∀ a ∈ as, ∀ k, Reference.number k ∉ a.node.targets) →
        (o.verbose = false →
          Piece.ofText o ("(" ++ text ++ ")").toList = .ok (bracketed (.capture none) (joined as))) ∧
        ∀ text', Piece.ofText o text'.toList = .ok (bracketed (.capture none) (joined as)) →
          ∃ p', (Recipe.text text').pattern o = .ok p' ∧ ∀ input source,
            (∀ m ∈ p'.scan input, m.lastNamed = none) ∧
            (p'.scan input).map (fun m => (Raw.matched m).convert source) =
              (p.scan input).map fun m => (Raw.matched m).convert source) := by
  obtain ⟨compiled, hnamed⟩ := Recipe.pattern_eq_ok.1 accepted
  have hne : as ≠ [] := by
    rintro rfl
    obtain ⟨n, hn, hnames⟩ := numbers_of_written written compiled
    unfold namesGroups at hnamed
    rw [hnames, hn.opens.names_eq] at hnamed
    cases hnamed
  refine ⟨fun input source m hm => ?_, fun named => ⟨fun plain => ?_, fun text' written' => ?_⟩⟩
  · obtain ⟨a, number, inner, hfrom, hname, hclosed, -⟩ := match_of_written written compiled hne hm
    have hlast := Match.lastNamed_of_closed hname hclosed
    have htoken := Match.token_of_lastNamed hlast source
    obtain ⟨i, -, -, -, ha, -⟩ := id hfrom
    exact ⟨a, List.mem_of_getElem? ha, hfrom, hlast, congrArg (Except.map some) htoken⟩
  · obtain ⟨b, ps, hjoined⟩ := Choice.joined_eq_cons hne
    rw [hjoined] at written ⊢
    have h := ofText_bracketed o plain written
    simpa using h
  · have hunder := compile_bracketed written (Choice.ofPieces_joined as)
      (fun k => Choice.not_mem_targets_union fun a ha => named a ha k) compiled written'
    refine ⟨p.under text', Recipe.pattern_eq_ok.2 ⟨hunder, hnamed⟩, fun input source => ?_⟩
    rw [scan_under]
    constructor
    · intro m hm
      obtain ⟨m, -, rfl⟩ := List.mem_map.1 hm
      rfl
    · rw [List.map_map]
      refine List.map_congr_left fun m hm => ?_
      obtain ⟨a, number, inner, -, hname, hclosed, hinner⟩ := match_of_written written compiled hne hm
      exact congrArg (Except.map some) (Match.token_under hname hclosed hinner source).2

/-- Two alternatives with named groups inside of them, which are closed and opened at other times. -/
theorem named_alternatives_pair :
    let char (c : Char) : Node := .seq (.one (.single c)) .empty
    let capture (name : String) (c : Char) : List Piece :=
      [.opening (.capture (some name)), .one (.single c), .closing]
    let pair : Choice := ⟨"pair", capture "left" 'a' ++ capture "right" 'b' ++ [.times ⟨0, some 1, true⟩],
      .seq (.group (some "left") (char 'a')) (.seq (.rep (.group (some "right") (char 'b')) 0 (some 1) true) .empty), rfl⟩
    let rest : Choice := ⟨"rest", .opening .plain :: capture "c" 'c' ++
        [.bar, .one (.single 'd'), .closing, .times ⟨0, none, true⟩],
      .seq (.rep (.alt (.seq (.group (some "c") (char 'c')) .empty) (char 'd')) 0 none true) .empty, rfl⟩
    let text := "(?P<pair>(?P<left>a)(?P<right>b)?)|(?P<rest>(?:(?P<c>c)|d)*)"
    let token (m : Match) := ((Raw.matched m).convert none).toOption.join
    ∃ p p', (Recipe.text text).pattern = .ok p ∧ (Recipe.text ("(" ++ text ++ ")")).pattern = .ok p' ∧
      (∀ m ∈ p.scan "abacd", ∃ a ∈ [pair, rest], (Raw.matched m).convert none =
        .ok (some ⟨a.name, m.whole, m.span.start, none⟩)) ∧
      (p'.scan "abacd").map token = [some ⟨"pair", "ab", 0, none⟩, some ⟨"pair", "a", 2, none⟩,
        some ⟨"rest", "cd", 3, none⟩, some ⟨"rest", "", 5, none⟩] := by
  intro char capture pair rest text token
  let parts := [(pair, "(?P<left>a)(?P<right>b)?".toList), (rest, "(?:(?P<c>c)|d)*".toList)]
  have spelled : text.toList = Choice.spellAll parts := by decide +kernel
  have readable : ∀ x ∈ parts, Text.isIdentifier x.1.name.toList = true ∧ Piece.ofText {} x.2 = .ok x.1.pieces := by
    refine List.forall_mem_cons.2 ⟨⟨by decide +kernel, by decide +kernel⟩, List.forall_mem_singleton.2 ?_⟩
    exact ⟨by decide +kernel, by decide +kernel⟩
  have written : Piece.ofText {} text.toList = .ok (joined [pair, rest]) := by
    rw [spelled]
    exact Choice.ofText_spellAll {} rfl parts readable
  have accepted := Recipe.pattern_eq_ok.2
    ⟨compile_eq_ok.2 ⟨_, _, _, _, written, Choice.ofPieces_joined [pair, rest], .of_number rfl, rfl⟩, rfl⟩
  obtain ⟨hplain, hwrapped⟩ := named_alternatives written accepted
  obtain ⟨literal, hwrapped⟩ := hwrapped (by
    intro a ha k
    rcases List.mem_cons.1 ha with rfl | ha
    · exact List.not_mem_nil
    · rw [List.mem_singleton.1 ha]
      exact List.not_mem_nil)
  obtain ⟨p', accepted', htokens⟩ := hwrapped _ (literal rfl)
  refine ⟨_, p', accepted, accepted', fun m hm => ?_, ?_⟩
  · obtain ⟨a, ha, -, -, hconvert⟩ := hplain _ none m hm
    exact ⟨a, ha, hconvert⟩
  · have h := congrArg (List.map fun t : Except Failure (Option Token) => t.toOption.join) (htokens "abacd" none).2
    rw [List.map_map, List.map_map] at h
    refine h.trans ?_
    decide +kernel

end Tokenizer

end Lookahead
