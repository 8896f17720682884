import Mathlib.Control.Monad.Basic
import Lookahead.Proofs.Sessions
import Lookahead.Proofs.Spans

/-!
# Tokens are slices

What a lexer over the matches of a pattern holds are slices of its text: the value of a token is what lies between its
index and its end (`Session.tokens_are_slices`). Of the matches nothing is asked but that they are matches of this text,
with the groups that took part inside it (`Match.LiesIn`), so that looks and repeated groups need no care. The invariant
is `Lexer.Furnished`: a lexer holds nothing but what its feed gave, and the token at the end.
-/

namespace Lookahead

/-- The token is the slice of the text from its index to its end, as one of the named groups or as the end. -/
def Token.SliceOf (t : Token) (s : Source) (names : List (Option String)) : Prop :=
  t.finish ≤ s.input.length ∧ t.value.toList = (s.input.toList.take t.finish).drop t.index ∧ t.source = some s ∧
    (t.group = Token.eofGroup ∨ some t.group ∈ names)

theorem Token.StandsIn.value_eq {t : Token} {input : List Char} (h : t.StandsIn input) :
    t.value.toList = (input.take t.finish).drop t.index := by
  have hlength : t.finish - t.index = t.value.toList.length := by
    rw [String.length_toList]
    exact Nat.add_sub_cancel_left _ _
  rw [List.drop_take, h.drop_index, hlength, List.take_left]

theorem Token.StandsIn.sliceOf {t : Token} {s : Source} {names : List (Option String)} (h : t.StandsIn s.input.toList)
    (hs : t.source = some s) (hg : t.group = Token.eofGroup ∨ some t.group ∈ names) : t.SliceOf s names := by
  have hle := h.finish_le
  rw [String.length_toList] at hle
  exact ⟨hle, h.value_eq, hs, hg⟩

/-- What is read off a feed of matches is a named group of one of them. -/
theorem Token.sliceOf_of_read {ms : List Match} {s : Source} {names : List (Option String)}
    (inside : ∀ m ∈ ms, m.LiesIn s.input ∧ m.names = names) {k : Nat} {t : Token}
    (h : ((Feed.ofMatches ms).outcome k).read s = .ok (some t)) : t.SliceOf s names := by
  obtain ⟨m, hm, ht⟩ := Feed.read_ofMatches h
  obtain ⟨hlies, hnames⟩ := inside m (List.mem_of_getElem? hm)
  obtain ⟨hstands, hsource, span, hclassify, -⟩ := hlies.token ht
  obtain ⟨j, hname, -⟩ := Match.classify_mem hclassify
  rw [hnames] at hname
  exact hstands.sliceOf hsource (.inr (List.mem_of_getElem? hname))

namespace Lexer

variable {φ : Type}

/-- The tokens that a lexer holds: the current one and, if there is one, the one before. -/
def held (l : Lexer φ) : List Token := l.current :: l.previous.toList

/-- The lexer reads the text `s` from a feed with the answers `outcome`, and each token that it holds is the one at the
end or was read off an answer. -/
structure Furnished (s : Source) (outcome : Nat → Pull) (l : Lexer φ) : Prop where
  source_eq : l.intake.source = s
  outcome_eq : l.intake.feed.outcome = outcome
  held : ∀ t ∈ l.held, t = .eof s ∨ ∃ k, (outcome k).read s = .ok (some t)

namespace Furnished

variable {s : Source} {outcome : Nat → Pull} {l : Lexer φ}

/-- What happens to an intake that reads the same text from the same feed does not matter. -/
theorem of_intake (hl : Furnished s outcome l) (i : Intake φ) (hs : i.source = l.intake.source)
    (ho : i.feed.outcome = l.intake.feed.outcome) (handler : Handler φ) :
    Furnished s outcome ⟨i, l.previous, l.current, handler⟩ :=
  ⟨hs.trans hl.source_eq, ho.trans hl.outcome_eq, hl.held⟩

variable [Judge φ]

private theorem of_judge (hl : Furnished s outcome l) {f : Option φ} {i : Intake φ} {v : Except Failure Bool}
    (h : (l.refiltered f).judge (some l.view) l.current = (v, i)) : Furnished s outcome { l with intake := i } := by
  obtain ⟨hs, hf, -⟩ := Intake.judge_frame h
  exact hl.of_intake i hs (congrArg Feed.outcome hf) _

private theorem of_fetches {view : Option View} {n : Nat} {i j : Intake φ} {t : Token}
    (h : Intake.Fetches view n i (.ok t) j) (hs : i.source = s) (ho : i.feed.outcome = outcome)
    {previous : Option Token} (hp : ∀ u ∈ previous, u = .eof s ∨ ∃ k, (outcome k).read s = .ok (some u))
    (handler : Handler φ) : Furnished s outcome ⟨j, previous, t, handler⟩ := by
  subst hs ho
  refine ⟨h.source_eq, h.outcome_eq, List.forall_mem_cons.2 ⟨?_, fun u hu => hp u (Option.mem_toList.1 hu)⟩⟩
  rcases h.of_ok with ⟨-, ht⟩ | ⟨-, k, -, -, ht⟩
  · exact .inl ht
  · exact .inr ⟨k, ht⟩

theorem stable {patience : Nat} : Stable patience (fun _ => True) (Furnished (φ := φ) s outcome) where
  failed _ := trivial
  remark {l e} _ hl := hl.of_intake (l.intake.note e) rfl rfl _
  onerror {l} g hl := hl.of_intake (l.intake.note (.handlerSet g)) rfl rfl _
  become {l} _ hl := hl.of_intake l.intake rfl rfl _
  advance {l l' r} ha _ hl := by
    cases ha with
    | moved h =>
      have hcurrent : ∀ u ∈ some l.current, u = .eof s ∨ ∃ k, (outcome k).read s = .ok (some u) := by
        intro u hu
        obtain rfl := Option.some.inj hu
        exact hl.held _ List.mem_cons_self
      have hl' := of_fetches h hl.source_eq hl.outcome_eq hcurrent l.handler
      exact hl'.of_intake (.note _ _) rfl rfl _
    | halted h => exact hl.of_intake _ h.source_eq h.outcome_eq _
  filter {l l' f r} hf _ hl := by
    cases hf with
    | atEnd => exact hl.of_intake (l.refiltered f) rfl rfl _
    | failed _ hj => exact hl.of_judge hj
    | kept _ hj => exact hl.of_judge hj
    | replaced _ hj hn =>
      have hi := hl.of_judge hj
      have hprevious : ∀ u ∈ l.previous, u = .eof s ∨ ∃ k, (outcome k).read s = .ok (some u) :=
        fun u hu => hl.held u (List.mem_cons_of_mem _ (Option.mem_toList.2 hu))
      have hl' := of_fetches hn hi.source_eq hi.outcome_eq hprevious l.handler
      exact hl'.of_intake (.note _ _) rfl rfl _
    | halted _ hj hn =>
      have hi := hl.of_judge hj
      exact hi.of_intake _ hn.source_eq hn.outcome_eq _

theorem of_create {patience : Nat} {i : Intake φ} {handler : Handler φ} (h : (create patience i handler).1 = .ok l) :
    Furnished i.source i.feed.outcome l := by
  obtain ⟨t, j, rfl, -, hf⟩ := create_eq_ok h
  exact of_fetches hf rfl rfl (by simp) _

end Furnished

end Lexer

namespace Session

variable {φ : Type}

/-- All that the lexers of the session hold are slices of their texts, which are the `inputs`. -/
def Sliced (names : List (Option String)) (inputs : List String) (s : Session φ) : Prop :=
  ∀ (n : Nat) (input : String) (l : Lexer φ), inputs[n]? = some input → s.lexers[n]? = some (some l) →
    l.source = ⟨input⟩ ∧ ∀ t, t = l.current ∨ l.previous = some t → t.SliceOf l.source names

variable [Judge φ]

private theorem furnished_lasts {f : Factory φ} (own_feeds : f.shared = false) {feed : String → Feed}
    (reads : f.tokenizer = fun input => .ok (feed input)) (patience : Nat) :
    Lasts patience f fun input => Lexer.Furnished ⟨input⟩ (feed input).outcome where
  made {input feed' common l} hfeed hl := by
    have hmade := hfeed own_feeds
    rw [reads] at hmade
    rw [Except.ok.inj hmade]
    exact .of_create hl
  lent {input l feed'} common hfeed hl := by
    obtain rfl := hfeed own_feeds
    exact hl.of_intake { l.intake with common, record := [] } rfl rfl _
  stable _ := Lexer.Furnished.stable

/-- A lexer over matches holds slices of its text only, if each match is one of this text and has its groups inside. -/
theorem sliced_of_matches {names : List (Option String)} {scan : String → List Match}
    (inside : ∀ input, ∀ m ∈ scan input, m.LiesIn input ∧ m.names = names) {f : Factory φ}
    (own_feeds : f.shared = false) (reads : f.tokenizer = .ofMatches scan) (patience : Nat) (steps : List (Step φ)) :
    Sliced names (steps.filterMap Step.input?) ((start f).run patience steps).2 := by
  intro n input l hi hl
  have hf := ((furnished_lasts own_feeds reads patience).run steps).holds hi hl
  have hs : l.source = ⟨input⟩ := hf.source_eq
  refine ⟨hs, fun t ht => ?_⟩
  have hmem : t ∈ l.held := by
    rcases ht with rfl | ht
    · exact List.mem_cons_self
    · exact List.mem_cons_of_mem _ (Option.mem_toList.2 ht)
  rw [hs]
  rcases hf.held t hmem with rfl | ⟨k, hk⟩
  · exact (Token.standsIn_eof _).sliceOf rfl (.inl rfl)
  · exact Token.sliceOf_of_read (inside input) hk

/-- Over a pattern that names a group, all lexers hold slices of their texts only, in every state. The same goes for any
other search whose matches are matches of the text with their groups inside. -/
theorem tokens_are_slices {r : Recipe} {o : Pattern.Options} {p : Pattern} (accepted : r.pattern o = .ok p)
    {f : Factory φ} (own_feeds : f.shared = false) (reads : Tokenizer.ofRecipe r o = .ok f.tokenizer) (patience : Nat)
    (steps : List (Step φ)) :
    let inputs := steps.filterMap Step.input?
    Sliced p.names inputs ((start f).run patience steps).2 ∧
      ∀ (names : List (Option String)) (scan : String → List Match),
        (∀ input, ∀ m ∈ scan input, m.LiesIn input ∧ m.names = names) →
        ∀ g : Factory φ, g.shared = false → g.tokenizer = .ofMatches scan →
          Sliced names inputs ((start g).run patience steps).2 := by
  intro inputs
  have hreads : Tokenizer.ofMatches p.scan = f.tokenizer := by
    unfold Tokenizer.ofRecipe at reads
    rw [accepted] at reads
    exact Except.ok.inj reads
  refine ⟨?_, fun names scan inside g own_feeds reads => sliced_of_matches inside own_feeds reads patience steps⟩
  exact sliced_of_matches (fun _ _ => Pattern.liesIn_of_mem_scan) own_feeds hreads.symm patience steps

/-- A group that is repeated, and one inside a look: its token stands behind the match, which is empty. -/
theorem tokens_are_slices_behind_match :
    let row (r : Regex Nat Nat) : Regex Nat Nat := .seq r .empty
    let char (c : Char) : Regex Nat Nat := row (.one (.single c))
    let p : Pattern := ⟨"(?P<letter>a)+|(?=(?P<next>b))",
      .alt (row (.rep (.group 0 (char 'a')) 1 none true)) (row (.look true (row (.group 1 (char 'b'))))),
      [some "letter", some "next"]⟩
    let f : Factory Filter := { tokenizer := .ofPattern p }
    let s := ((start f).run 5 [.lex "aab", .call 0 .advance]).2
    (Recipe.text p.text).pattern = .ok p ∧ Tokenizer.ofRecipe (.text p.text) = .ok f.tokenizer ∧
      (p.scan "aab").map (fun m => (m.span.start, m.span.stop)) = [(0, 2), (2, 2)] ∧
      ∃ l, s.lexers[0]? = some (some l) ∧ l.previous = some ⟨"letter", "a", 1, some ⟨"aab"⟩⟩ ∧
        l.current = ⟨"next", "b", 2, some ⟨"aab"⟩⟩ ∧ l.current.SliceOf l.source p.names := by
  intro row char p f s
  have accepted : (Recipe.text p.text).pattern = .ok p := by decide +kernel
  have reads : Tokenizer.ofRecipe (.text p.text) = .ok f.tokenizer := by
    rw [Tokenizer.ofRecipe, accepted]
    rfl
  have hheld : s.lexers[0]?.join.map (fun l => (l.previous, l.current)) =
      some (some ⟨"letter", "a", 1, some ⟨"aab"⟩⟩, ⟨"next", "b", 2, some ⟨"aab"⟩⟩) := by decide +kernel
  obtain ⟨l, hjoin, hpair⟩ := Option.map_eq_some_iff.1 hheld
  obtain ⟨hprevious, hcurrent⟩ := Prod.mk.inj hpair
  have hl : s.lexers[0]? = some (some l) := Option.join_eq_some_iff.1 hjoin
  obtain ⟨hsliced, -⟩ := tokens_are_slices accepted (f := f) rfl reads 5 [.lex "aab", .call 0 .advance]
  have hslice := (hsliced 0 "aab" l rfl hl).2 l.current (.inl rfl)
  exact ⟨accepted, reads, by decide +kernel, l, hl, hprevious, hcurrent, hslice⟩

end Session

end Lookahead
