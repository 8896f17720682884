import Lookahead.Proofs.Chronicle
import Lookahead.Proofs.Conversion

/-!
# Where tokens come from

Every token that a lexer holds is the one at the end of its text, or was made of an item that this lexer pulled
(`Scene.mem_held_along`). It shows what the item shows, and its source is that of the item if the item has one and else
the text of the lexer that pulled it, whoever the feed was made for (`Session.tokens_know_sources`).
-/

namespace Lookahead

/-- The source that an item brings along. -/
def Raw.source? : Raw → Option Source
  | token u => u.source
  | _ => none

/-- The token has the group, the value and the index of the item. A match is known by the group that decides. -/
def Raw.Shows (t : Token) : Raw → Prop
  | token u => t.Same u
  | matched m => ∃ k, m.Decides k ∧ m.name? k = some t.group ∧ m.textOf k = some t.value ∧ m.startOf k = t.index
  | _ => False

/-- What an item is made into shows what the item shows, and knows a source if the item or the reader does. -/
theorem Raw.shows_of_convert {raw : Raw} {source : Option Source} {t : Token} (h : raw.convert source = .ok (some t)) :
    raw.Shows t ∧ t.source = raw.source?.or source := by
  cases raw with
  | nothing => cases h
  | foreign => cases h
  | token u =>
    obtain rfl := Option.some.inj (Except.ok.inj h)
    exact ⟨u.same_attach source, rfl⟩
  | matched m =>
    have h : (m.token source).map some = .ok (some t) := h
    unfold Match.token at h
    cases hc : m.classify with
    | none =>
      rw [hc] at h
      cases h
    | some c =>
      obtain ⟨k, hk, hname, hspan⟩ := Match.classify_eq_some_iff.1 hc
      rw [hc] at h
      obtain rfl := Option.some.inj (Except.ok.inj h)
      refine ⟨⟨k, hk, hname, ?_, ?_⟩, rfl⟩
      · exact Match.textOf_eq_some hspan
      · rw [Match.startOf, hspan]
        rfl

theorem Pull.item_of_read {a : Pull} {s : Source} {t : Token} (h : a.read s = .ok (some t)) :
    ∃ raw, a = .item raw ∧ raw.convert (some s) = .ok (some t) := by
  cases a with
  | item raw => exact ⟨raw, rfl, h⟩
  | fail g => cases h
  | stop => cases h

/-- A token that knows its source is not changed when it is read again. -/
theorem Token.attach_of_source {t : Token} {s : Source} (h : t.source = some s) (source : Option Source) :
    t.attach source = t := by
  rcases t with ⟨group, value, index, _⟩
  obtain rfl : _ = some s := h
  rfl

namespace Replay

variable {φ : Type}

/-- The token is the current or the previous one, or it came in to be the current one next. -/
def Holds (x : Replay φ) (t : Token) : Prop :=
  x.incoming = some t ∨ ∃ v, x.view = some v ∧ (t = v.current ∨ v.previous = some t)

theorem holds_of_receive {x : Replay φ} {u : Option Token} {t : Token} (h : (x.receive u).Holds t) :
    x.Holds t ∨ u = some t := by
  cases u with
  | none => exact .inl h
  | some u =>
    unfold receive at h
    cases hv : x.view with
    | none =>
      rw [hv] at h
      rcases h with h | ⟨v, hv', h⟩
      · exact .inl (.inl h)
      · obtain rfl := Option.some.inj hv'
        rcases h with rfl | h
        · exact .inr rfl
        · cases h
    | some v =>
      rw [hv] at h
      rcases h with h | h
      · exact .inr h
      · exact .inl (.inr (hv ▸ h))

/-- The next current token came in before, or the current one stays. -/
theorem holds_of_proceed {x : Replay φ} {previous : View → Option Token}
    (hp : ∀ v t, previous v = some t → t = v.current ∨ v.previous = some t) {t : Token}
    (h : (x.proceed previous).Holds t) : x.Holds t := by
  rcases h with h | ⟨_, hview, h⟩
  · cases h
  · obtain ⟨v, hv, rfl⟩ := Option.map_eq_some_iff.1 hview
    rcases h with rfl | h
    · cases hi : x.incoming with
      | none => exact .inr ⟨v, hv, .inl rfl⟩
      | some u => exact .inl hi
    · exact .inr ⟨v, hv, hp v t h⟩

variable [Judge φ]

/-- A token is not new, or it came in with the event. -/
theorem holds_of_after {x : Replay φ} {e : Event φ} {t : Token} (h : (x.after e).Holds t) :
    x.Holds t ∨ ∃ k fate, e = .pulled k fate ∧ fate.incoming? x.intake.source = some t := by
  cases e with
  | pulled k fate => exact (holds_of_receive h).imp_right fun h => ⟨k, fate, rfl, h⟩
  | consumed u => exact .inl (holds_of_proceed (fun v t ht => .inl (Option.some.inj ht).symm) h)
  | discarded u => exact .inl (holds_of_proceed (fun v t ht => .inr ht) h)
  | _ => exact .inl h

end Replay

namespace Scene

variable {φ : Type} [Judge φ] {shared : Bool} {x : Scene φ} {trace : List (Nat × Event φ)} {n : Nat} {t : Token}

/-- A token of a lexer is not new, or it came in with a pull of this lexer. -/
theorem holds_of_along (h : (x.along shared trace n).Holds t) :
    (x n).Holds t ∨ ∃ k fate, (n, .pulled k fate) ∈ trace ∧ fate.incoming? (x n).intake.source = some t := by
  induction trace generalizing x with
  | nil => exact .inl h
  | cons a trace ih =>
    rcases ih h with h | ⟨k, fate, hmem, hfate⟩
    · by_cases hn : n = a.1
      · subst hn
        rw [after, put_self] at h
        refine (Replay.holds_of_after h).imp_right ?_
        rintro ⟨k, fate, he, hfate⟩
        exact ⟨k, fate, he ▸ List.mem_cons_self, hfate⟩
      · rw [after, put_of_ne hn] at h
        exact .inl h
    · rw [after_source] at hfate
      exact .inr ⟨k, fate, List.mem_cons_of_mem _ hmem, hfate⟩

/-- A token that is kept is what the item means to the lexer that pulls it. -/
theorem Lawful.reads_of_kept (h : Lawful shared x trace) (agrees : x.Agrees shared) {k : Nat}
    (hmem : (n, .pulled k (.kept t)) ∈ trace) : x.reads n k = .ok (some t) := by
  obtain ⟨before, after, htrace⟩ := List.append_of_mem hmem
  obtain ⟨pre, es, fs, post, -, -, hallows⟩ := h.piece htrace
  obtain ⟨rfl, hkept, -⟩ := hallows.of_pulled
  rw [← agrees.reads_along pre]
  exact hkept t rfl

end Scene

namespace Session

variable {φ : Type} [Judge φ]

/-- Every token that a lexer holds knows its source. It is the token at the end of the text of this lexer, or was made
of an item that this lexer pulled; then it shows what the item shows, and its source is the one that the item brought
along, if it did, and else the text of this lexer. Who the feed was made for does not matter. A token that was made of
an item stays as it is when it is read again, by whichever lexer. -/
theorem tokens_know_sources (f : Factory φ) (patience : Nat) (steps : List (Step φ)) :
    let s := ((start f).run patience steps).2
    let trace := (start f).trace patience steps
    let inputs := steps.filterMap Step.input?
    (∀ n l, s.lexers[n]? = some (some l) → inputs[n]? = some l.source.input ∧
      ∀ t, t = l.current ∨ l.previous = some t →
        t.source.isSome = true ∧
          (t = .eof l.source ∨ ∃ k raw, (n, .pulled k (.kept t)) ∈ trace ∧ (f.stream inputs n).outcome k = .item raw ∧
            raw.Shows t ∧ t.source = some (raw.source?.getD l.source))) ∧
      ∀ (raw : Raw) (s s' : Source) (t : Token), raw.convert (some s) = .ok (some t) →
        (Raw.token t).convert (some s') = .ok (some t) := by
  intro s trace inputs
  obtain ⟨hlawful, hdepicted⟩ := chronicle f patience steps
  have agrees : (f.scene inputs).Agrees f.shared := (Depicted.start f inputs).agrees
  refine ⟨fun n l hl => ?_, fun raw s s' t h => ?_⟩
  · obtain ⟨hn, -⟩ := Array.getElem?_eq_some_iff.1 hl
    have hmade := hdepicted.made hl
    have hsource : l.source = ⟨inputs.getD n ""⟩ := by
      have h : ((f.scene inputs).along f.shared trace n).intake.source = ⟨inputs.getD n ""⟩ :=
        Scene.along_source _ trace n
      rwa [hmade] at h
    refine ⟨?_, fun t ht => ?_⟩
    · have hlt : n < inputs.length := hdepicted.size_eq ▸ hn
      rw [hsource, List.getD_eq_getElem?_getD, List.getElem?_eq_getElem hlt]
      rfl
    · have hholds : ((f.scene inputs).along f.shared trace n).Holds t := by
        rw [hmade]
        exact .inr ⟨l.view, rfl, ht⟩
      rcases Scene.holds_of_along hholds with hnew | ⟨k, fate, hmem, hfate⟩
      · -- Before a lexer is made there is no token.
        rcases hnew with h | ⟨v, h, -⟩
        · cases h
        · cases h
      · cases fate with
        | ended =>
          obtain rfl := Option.some.inj hfate
          exact ⟨rfl, .inl (congrArg Token.eof hsource.symm)⟩
        | lost => cases hfate
        | rejected => cases hfate
        | kept u =>
          obtain rfl : u = t := Option.some.inj hfate
          have hreads : ((f.stream inputs n).outcome k).read ⟨inputs.getD n ""⟩ = .ok (some u) :=
            hlawful.reads_of_kept agrees hmem
          rw [← hsource] at hreads
          obtain ⟨raw, hraw, hconvert⟩ := Pull.item_of_read hreads
          obtain ⟨hshows, hknows⟩ := Raw.shows_of_convert hconvert
          rw [Option.or_some] at hknows
          exact ⟨Option.isSome_of_eq_some hknows, .inr ⟨k, raw, hmem, hraw, hshows, hknows⟩⟩
  · obtain ⟨-, hknows⟩ := Raw.shows_of_convert h
    rw [Option.or_some] at hknows
    exact congrArg (fun t => Except.ok (some t)) (Token.attach_of_source hknows (some s'))

/-- Two lexers share a feed that was made for the text of the first one. A match in that text that the second lexer
pulls has the text of the second lexer for its source; a token that brought a source along keeps it. -/
theorem tokens_know_sources_of_two :
    let row (r : Regex Nat Nat) : Regex Nat Nat := .seq r .empty
    let letter : Pattern := ⟨"(?P<letter>[a-z])", row (.group 0 (row (.one ⟨[.range 'a' 'z'], false, false⟩))),
      [some "letter"]⟩
    let f : Factory Filter := {
      tokenizer := fun input => .ok (.ofList ((letter.scan input).map (fun m => .item (.matched m)) ++
        [.item (.token ⟨"mark", ";", 2, none⟩), .item (.token ⟨"mark", "!", 3, some ⟨"aside"⟩⟩)]))
      shared := true }
    let s := ((start f).run 5 [.lex "ab", .lex "cdef", .call 1 .advance, .call 0 .advance, .call 0 .advance]).2
    (Recipe.text letter.text).pattern = .ok letter ∧
      s.lexers.toList.map (fun o => o.map fun l => (l.previous, l.current)) =
        [some (some ⟨"mark", "!", 3, some ⟨"aside"⟩⟩, .eof ⟨"ab"⟩),
          some (some ⟨"letter", "b", 1, some ⟨"cdef"⟩⟩, ⟨"mark", ";", 2, some ⟨"cdef"⟩⟩)] ∧
      ∀ (n : Nat) (l : Lexer Filter), s.lexers[n]? = some (some l) → l.current.source.isSome = true := by
  intro row letter f s
  refine ⟨by decide +kernel, by decide +kernel, fun n l hl => ?_⟩
  obtain ⟨h, -⟩ := tokens_know_sources f 5
    [.lex "ab", .lex "cdef", .call 1 .advance, .call 0 .advance, .call 0 .advance]
  exact ((h n l hl).2 l.current (.inl rfl)).1

end Session

end Lookahead
