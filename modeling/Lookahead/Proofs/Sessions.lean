import Lookahead.Proofs.Independence

/-!
# The lexers of a session

What holds of every lexer when it is made, does not hang on what is lent to it, and is kept by the parts of every
operation, holds of all lexers of a session, however their steps are mixed (`Session.Lasts.run`). The feed of a lexer is
one of those things only if the lexers of the factory have their feed in common.
-/

namespace Lookahead

namespace Session

variable {φ : Type} [Judge φ]

/-- A property of the lexers that a factory makes, and of their inputs: a new lexer has it, no filter and no feed in
common with others matters to it, and the parts of every operation keep it. -/
structure Lasts (patience : Nat) (f : Factory φ) (P : String → Lexer φ → Prop) : Prop where
  made {input : String} {feed : Feed} {common : Option φ} {l : Lexer φ} :
    (f.shared = false → f.tokenizer input = .ok feed) →
    (Lexer.create patience { source := ⟨input⟩, feed, common } f.handler).1 = .ok l → P input l
  lent {input : String} {l : Lexer φ} {feed : Feed} (common : Option φ) :
    (f.shared = false → feed = l.intake.feed) → P input l →
    P input { l with intake := { l.intake with common, feed, record := [] } }
  stable (input : String) : Lexer.Stable patience (fun _ => True) (P input)

/-- The session `s` of the factory `f` asked for lexers over `inputs`, and those that were made have the property. -/
structure Upholds (f : Factory φ) (P : String → Lexer φ → Prop) (inputs : List String) (s : Session φ) : Prop where
  factory_eq : s.factory = f
  feed_eq : f.shared = false → s.feed = none
  feed_isSome {n : Nat} {l : Lexer φ} : f.shared = true → s.lexers[n]? = some (some l) → s.feed.isSome = true
  size_eq : s.lexers.size = inputs.length
  holds {n : Nat} {input : String} {l : Lexer φ} : inputs[n]? = some input → s.lexers[n]? = some (some l) → P input l

/-- A lexer that was made anew read from the feed that was supplied. -/
theorem lexer_lex {s : Session φ} {patience : Nat} {input : String} {l : Lexer φ}
    (h : (s.lex patience input).1.lexer = some l) :
    ∃ feed, s.supply input = .ok feed ∧
      (Lexer.create patience { source := ⟨input⟩, feed, common := s.filter } s.factory.handler).1 = .ok l := by
  unfold lex at h
  cases hs : s.supply input with
  | error g =>
    rw [hs] at h
    cases h
  | ok feed =>
    rw [hs] at h
    dsimp only at h
    refine ⟨feed, rfl, ?_⟩
    revert h
    rcases Lexer.create patience { source := ⟨input⟩, feed, common := s.filter } s.factory.handler with ⟨e | l', i⟩
    · intro h
      cases h
    · intro h
      exact congrArg Except.ok (Option.some.inj h)

/-- No step changes the factory. A feed in common stays, and is there once a lexer is made; without one there is none
after a step if there was none before. -/
theorem feed_step (s : Session φ) (patience : Nat) (step : Step φ) :
    (s.step patience step).2.factory = s.factory ∧
      (s.factory.shared = false → (s.step patience step).2.feed = s.feed) ∧
      (s.factory.shared = true → s.feed.isSome = true ∨ (s.step patience step).1.lexer.isSome = true →
        (s.step patience step).2.feed.isSome = true) := by
  have back : ∀ i : Intake φ, (s.factory.shared = false → (s.takeBack i).feed = s.feed) ∧
      (s.factory.shared = true → (s.takeBack i).feed.isSome = true) := by
    intro i
    unfold takeBack
    exact ⟨fun h => by simp [h], fun h => by simp [h]⟩
  have nothing : s.feed.isSome = true ∨ (none : Option (Lexer φ)).isSome = true → s.feed.isSome = true := by
    simp
  cases step with
  | lex input =>
    simp only [Session.step, lex]
    cases s.supply input with
    | error g => exact ⟨rfl, fun _ => rfl, fun _ => nothing⟩
    | ok feed =>
      dsimp only
      rcases Lexer.create patience { source := ⟨input⟩, feed, common := s.filter } s.factory.handler with ⟨e | l, i⟩
      · exact ⟨rfl, (back i).1, fun h _ => (back i).2 h⟩
      · exact ⟨rfl, (back i).1, fun h _ => (back i).2 h⟩
  | call n c =>
    simp only [Session.step, call]
    cases s.lexers[n]?.join with
    | none => exact ⟨rfl, fun _ => rfl, fun _ => nothing⟩
    | some l => exact ⟨rfl, (back _).1, fun h _ => (back _).2 h⟩

namespace Lasts

variable {patience : Nat} {f : Factory φ} {P : String → Lexer φ → Prop} {inputs : List String} {s : Session φ}

omit [Judge φ] in
private theorem upholds_start (f : Factory φ) (P : String → Lexer φ → Prop) : Upholds f P [] (start f) where
  factory_eq := rfl
  feed_eq _ := rfl
  feed_isSome _ h := nomatch h
  size_eq := rfl
  holds h := nomatch h

variable (h : Lasts patience f P)
include h

private theorem lex (u : Upholds f P inputs s) (input : String) :
    Upholds f P (inputs ++ [input]) (s.lex patience input).2 := by
  obtain ⟨hfactory, hown, hshared⟩ := s.feed_step patience (.lex input)
  have hlexers := s.lexers_lex patience input
  rw [u.factory_eq] at hfactory hown hshared
  have hold : ∀ {n : Nat} {l : Lexer φ}, (s.lex patience input).2.lexers[n]? = some (some l) →
      (n = s.lexers.size ∧ (s.lex patience input).1.lexer = some l) ∨ s.lexers[n]? = some (some l) := by
    intro n l hl
    rw [hlexers, Array.getElem?_push] at hl
    split at hl
    next hn => exact .inl ⟨hn, Option.some.inj hl⟩
    next hn => exact .inr hl
  refine ⟨hfactory, fun ho => (hown ho).trans (u.feed_eq ho), fun hs hl => hshared hs ?_, ?_, fun hi hl => ?_⟩
  · rcases hold hl with ⟨-, hl⟩ | hl
    · exact .inr (Option.isSome_of_eq_some hl)
    · exact .inl (u.feed_isSome hs hl)
  · rw [hlexers, Array.size_push, u.size_eq, List.length_append]
    rfl
  · rcases hold hl with ⟨rfl, hnew⟩ | hl'
    · rw [u.size_eq, List.getElem?_append_right (Nat.le_refl _), Nat.sub_self] at hi
      cases hi
      obtain ⟨feed, hsupply, hcreate⟩ := lexer_lex hnew
      rw [u.factory_eq] at hcreate
      refine h.made (fun ho => ?_) hcreate
      rw [← hsupply, supply, u.feed_eq ho, u.factory_eq]
    · obtain ⟨hn, -⟩ := Array.getElem?_eq_some_iff.1 hl'
      rw [u.size_eq] at hn
      rw [List.getElem?_append_left hn] at hi
      exact u.holds hi hl'

private theorem call (u : Upholds f P inputs s) (n : Nat) (c : Call φ) :
    Upholds f P inputs (s.call patience n c).2 := by
  obtain ⟨hfactory, hown, hshared⟩ := s.feed_step patience (.call n c)
  rw [u.factory_eq] at hfactory hown hshared
  cases hl : s.lexers[n]?.join with
  | none =>
    rw [call_of_none hl]
    exact u
  | some l =>
    have hl : s.lexers[n]? = some (some l) := Option.join_eq_some_iff.1 hl
    have hothers : ∀ {m : Nat}, m ≠ n → (s.call patience n c).2.lexers[m]? = s.lexers[m]? :=
      fun hm => s.lexers_step patience (.call n c) hm
    refine ⟨hfactory, fun ho => (hown ho).trans (u.feed_eq ho),
      fun hs _ => hshared hs (.inl (u.feed_isSome hs hl)), (s.size_call patience n c).trans u.size_eq,
      fun {m input l'} hi hl' => ?_⟩
    by_cases hm : m = n
    · subst hm
      have hlent : P input { l with intake := s.lend l.intake } := by
        refine h.lent s.filter (fun ho => ?_) (u.holds hi hl)
        rw [u.factory_eq, ho]
        rfl
      have hcall := (h.stable input).of_call (c := c) (fun _ _ => trivial) hlent
      rw [call_of_some hl] at hl'
      obtain ⟨hn, -⟩ := Array.getElem?_eq_some_iff.1 hl
      have hset : (s.lexers.setIfInBounds m
          (some (({ l with intake := s.lend l.intake } : Lexer φ).call patience c).2))[m]? = some (some l') := hl'
      rw [Array.getElem?_setIfInBounds_self_of_lt hn] at hset
      obtain rfl := Option.some.inj (Option.some.inj hset)
      exact hcall
    · rw [hothers hm] at hl'
      exact u.holds hi hl'

theorem run_from (u : Upholds f P inputs s) (steps : List (Step φ)) :
    Upholds f P (inputs ++ steps.filterMap Step.input?) (s.run patience steps).2 := by
  induction steps generalizing inputs s with
  | nil =>
    rw [List.filterMap_nil, List.append_nil]
    exact u
  | cons step steps ih =>
    cases step with
    | lex input =>
      have hinputs := ih (h.lex u input)
      rwa [List.append_assoc] at hinputs
    | call n c => exact ih (h.call u n c)

/-- All lexers of a session have the property. -/
theorem run (steps : List (Step φ)) :
    Upholds f P (steps.filterMap Step.input?) ((start f).run patience steps).2 :=
  h.run_from (upholds_start f P) steps

end Lasts

end Session

end Lookahead
