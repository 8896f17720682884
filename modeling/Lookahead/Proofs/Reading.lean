import Lookahead.Proofs.Groups
import Lookahead.Proofs.Nesting

/-!
# Reading before a parenthesis

What a reader reads at the front of a text, it reads too when a closing parenthesis and more text follow
(`readPiece_append`). So the pieces of a text stay the same before a closing parenthesis (`ofText_append`). This does
not hold for verbose patterns, where a text may end in a remark, to which the parenthesis would belong.
-/

namespace Lookahead.Pattern

/-- Where the one reader succeeds, the other gives the same value, with more text in the rest. -/
def Extends {α : Type} {n m : Nat} (more : List Char) (x : Except Fault (Front α n)) (x' : Except Fault (Front α m)) :
    Prop :=
  ∀ r, x = .ok r → ∃ r', x' = .ok r' ∧ r'.value = r.value ∧ r'.rest = r.rest ++ more

namespace Extends

variable {α β : Type} {n m k l : Nat} {more : List Char} {x : Except Fault (Front α n)} {x' : Except Fault (Front α m)}

theorem ok {r : Front α n} {r' : Front α m} (hv : r'.value = r.value) (hr : r'.rest = r.rest ++ more) :
    Extends more (.ok r) (.ok r') := by
  intro s hs
  cases hs
  exact ⟨r', rfl, hv, hr⟩

theorem congr {y : Except Fault (Front α n)} {y' : Except Fault (Front α m)} (hx : x = y) (hx' : x' = y')
    (h : Extends more y y') : Extends more x x' := by
  rw [hx, hx']
  exact h

theorem error (f : Fault) : Extends more (.error f : Except Fault (Front α n)) x' := by
  intro s hs
  cases hs

theorem map (h : Extends more x x') {f : Front α n → Front β k} {f' : Front α m → Front β l}
    (hf : ∀ r r', r'.value = r.value → r'.rest = r.rest ++ more →
      (f' r').value = (f r).value ∧ (f' r').rest = (f r).rest ++ more) : Extends more (x.map f) (x'.map f') := by
  intro s hs
  cases x with
  | error f => cases hs
  | ok r =>
    cases hs
    obtain ⟨r', rfl, hv, hr⟩ := h r rfl
    exact ⟨f' r', rfl, hf r r' hv hr⟩

theorem map_weaken (h : Extends more x x') (g : α → β) {hk : n ≤ k} {hl : m ≤ l} :
    Extends more (x.map fun r => (r.map g).weaken hk) (x'.map fun r => (r.map g).weaken hl) :=
  h.map fun _ _ hv hr => ⟨congrArg g hv, hr⟩

theorem bind (h : Extends more x x') {f : Front α n → Except Fault (Front β k)} {f' : Front α m → Except Fault (Front β l)}
    (hf : ∀ r r', r'.value = r.value → r'.rest = r.rest ++ more → Extends more (f r) (f' r')) :
    Extends more (x >>= f) (x' >>= f') := by
  intro s hs
  obtain ⟨r, hr, hs⟩ := bind_eq_ok hs
  obtain ⟨r', rfl, hv, hrest⟩ := h r hr
  exact hf r r' hv hrest s hs

end Extends

/-- Before a closing parenthesis, a text that does not begin with one begins as it does by itself. -/
theorem eq_cons_of_append {c : Char} (hc : c ≠ ')') {cs tail rest : List Char} (h : cs ++ ')' :: tail = c :: rest) :
    ∃ rest', cs = c :: rest' := by
  cases cs with
  | nil => exact absurd (List.cons.inj h).1.symm hc
  | cons d cs => exact ⟨cs, by rw [(List.cons.inj h).1]⟩

theorem length_lt_of_dropWhile {p : Char → Bool} {c : Char} {cs rest : List Char} (h : cs.dropWhile p = c :: rest) :
    rest.length < cs.length := by
  have hle := length_dropWhile_le p cs
  rw [h, List.length_cons] at hle
  exact hle

variable (o : Options) (tail : List Char)

theorem readEscape_append (c : Char) (cs : List Char) :
    Extends (')' :: tail) (readEscape o c cs) (readEscape o c (cs ++ ')' :: tail)) := by
  unfold readEscape
  dsimp only
  cases place o c with
  | some a => exact .ok rfl rfl
  | none =>
    cases family o c with
    | some item => exact .ok rfl rfl
    | none =>
      cases control c with
      | some d => exact .ok rfl rfl
      | none =>
        dsimp only
        split
        · have h : readNumber c (cs ++ ')' :: tail) = ((readNumber c cs).1, (readNumber c cs).2 ++ ')' :: tail) := by
            cases cs with
            | nil => rfl
            | cons d cs =>
              simp only [readNumber, List.cons_append]
              split <;> rfl
          exact .ok (congrArg (fun p => Piece.back (.number p.1) o.ignoreCase) h) (congrArg Prod.snd h)
        · split
          · exact .error _
          · exact .ok rfl rfl

theorem readMember_append (cs : List Char) :
    Extends (')' :: tail) (readMember o cs) (readMember o (cs ++ ')' :: tail)) := by
  cases cs with
  | nil => exact .error _
  | cons c cs =>
    by_cases hc : c = '\\'
    · subst hc
      cases cs with
      | nil => exact .error _
      | cons d cs =>
        change Extends _ ((memberEscape o d).map _) ((memberEscape o d).map _)
        cases memberEscape o d with
        | error f => exact .error _
        | ok m => exact .ok rfl rfl
    · have h (cs : List Char) : readMember o (c :: cs) = .ok ⟨.char c, cs, Nat.lt_succ_self _⟩ :=
        readMember.eq_4 o c cs (fun h => absurd h hc) (fun _ _ h => absurd h hc)
      rw [List.cons_append, h, h]
      exact .ok rfl rfl

section Items

variable {first : Bool} {c : Char} {cs rest : List Char} {v : Member} {hs : rest.length < (c :: cs).length}
  (h : ¬ (decide (c = ']') && !first) = true)
include h

theorem readItems_last {hs : ('-' :: ']' :: rest).length < (c :: cs).length}
    (hm : readMember o (c :: cs) = .ok ⟨v, '-' :: ']' :: rest, hs⟩) :
    ∃ hr, readItems o first (c :: cs) = .ok ⟨[v.toItem, .range '-' '-'], rest, hr⟩ := by
  rw [readItems.eq_def]
  dsimp only
  rw [if_neg h, hm]
  exact ⟨_, rfl⟩

theorem readItems_range {hs : ('-' :: rest).length < (c :: cs).length}
    (hm : readMember o (c :: cs) = .ok ⟨v, '-' :: rest, hs⟩) (hrest : ∀ r, rest ≠ ']' :: r) :
    ∃ hle : ∀ n : Front Member rest.length, n.rest.length ≤ (c :: cs).length,
      readItems o first (c :: cs) = (do
        let n ← readMember o rest
        let item ← range v n.value
        let more ← readItems o false n.rest
        .ok ((more.map (item :: ·)).weaken (hle n))) := by
  have hle (n : Front Member rest.length) : n.rest.length ≤ (c :: cs).length :=
    Nat.le_of_lt (Nat.lt_trans n.shorter (Nat.lt_of_succ_lt hs))
  refine ⟨hle, ?_⟩
  rw [readItems.eq_def]
  dsimp only
  rw [if_neg h, hm]
  dsimp only [bind, Except.bind]
  split
  next r hr => exact absurd (List.cons.inj hr).2 (hrest r)
  next r _ hr =>
    cases hr
    rfl
  next _ hno => exact absurd rfl (hno rest)

theorem readItems_member (hm : readMember o (c :: cs) = .ok ⟨v, rest, hs⟩) (hrest : ∀ r, rest ≠ '-' :: r) :
    readItems o first (c :: cs) = (do
      let more ← readItems o false rest
      .ok ((more.map (v.toItem :: ·)).weaken (Nat.le_of_lt hs))) := by
  rw [readItems.eq_def]
  dsimp only
  rw [if_neg h, hm]
  dsimp only [bind, Except.bind]
  split
  next => exact absurd rfl (hrest _)
  next => exact absurd rfl (hrest _)
  next => rfl

end Items

theorem readItems_append (first : Bool) (cs : List Char) :
    Extends (')' :: tail) (readItems o first cs) (readItems o first (cs ++ ')' :: tail)) := by
  induction first, cs using readItems.induct with
  | case1 first =>
    rw [readItems]
    exact .error _
  | case2 first c cs h =>
    rw [List.cons_append, readItems.eq_def, readItems.eq_def o first (c :: (cs ++ _))]
    dsimp only
    rw [if_pos h, if_pos h]
    exact .ok rfl rfl
  | case3 first c cs h ih ih' =>
    cases hm : readMember o (c :: cs) with
    | error f =>
      rw [readItems.eq_def]
      dsimp only
      rw [if_neg h, hm]
      exact .error _
    | ok m =>
      obtain ⟨⟨v', rest', hs'⟩, hm', hv, hrest⟩ := readMember_append o tail _ m hm
      obtain ⟨v, rest, hs⟩ := m
      cases hv
      cases hrest
      -- What follows the member is the closing bracket, a range, or another member; more text changes none of it.
      rcases rest with _ | ⟨d, rest⟩
      · refine .congr (readItems_member o h hm (fun _ => (List.cons_ne_nil _ _).symm)) rfl ?_
        rw [readItems]
        exact .error _
      · by_cases hd : d = '-'
        · subst hd
          rcases rest with _ | ⟨e, rest⟩
          · obtain ⟨_, h₁⟩ := readItems_range o h hm (fun _ => (List.cons_ne_nil _ _).symm)
            exact .congr h₁ rfl (.error _)
          · by_cases he : e = ']'
            · subst he
              obtain ⟨_, h₁⟩ := readItems_last o h hm
              obtain ⟨_, h₂⟩ := readItems_last o h hm'
              exact .congr h₁ h₂ (.ok rfl rfl)
            · obtain ⟨_, h₁⟩ := readItems_range o h hm fun r hr => he (List.cons.inj hr).1
              obtain ⟨_, h₂⟩ := readItems_range o h hm' fun r hr => he (List.cons.inj hr).1
              refine .congr h₁ h₂ (.bind (readMember_append o tail _) fun n n' hv hrest => ?_)
              obtain ⟨w, nrest', hn'⟩ := n'
              cases hv
              cases hrest
              cases range v' n.value with
              | error f => exact .error f
              | ok item =>
                refine .bind (ih ⟨v', '-' :: e :: rest, hs⟩ _ rfl n) fun q q' hq hqr => .ok ?_ hqr
                exact congrArg (item :: ·) hq
        · refine .congr (readItems_member o h hm fun r hr => hd (List.cons.inj hr).1)
            (readItems_member o h hm' fun r hr => hd (List.cons.inj hr).1) ?_
          refine .bind (ih' ⟨v', d :: rest, hs⟩) fun q q' hq hqr => .ok ?_ hqr
          exact congrArg (_ :: ·) hq

theorem readSet_append (cs : List Char) : Extends (')' :: tail) (readSet o cs) (readSet o (cs ++ ')' :: tail)) := by
  rcases cs with _ | ⟨c, cs⟩
  · refine .congr (y := .error .unterminatedSet) ?_ rfl (.error _)
    rw [readSet.eq_2 _ _ (fun _ => (List.cons_ne_nil _ _).symm), readItems]
    rfl
  · by_cases hc : c = '^'
    · subst hc
      exact (readItems_append o tail true cs).map_weaken _
    · exact .congr (readSet.eq_2 o _ fun r hr => hc (List.cons.inj hr).1)
        (readSet.eq_2 o _ fun r hr => hc (List.cons.inj hr).1) ((readItems_append o tail true _).map_weaken _)

/-! ### Parentheses -/

/-- Where a stretch of characters ends is decided by the first character that is not of the kind. -/
theorem span_append {p : Char → Bool} {c : Char} {cs : List Char} (h : cs.dropWhile p ≠ [] ∨ p c = false) :
    (cs ++ c :: tail).dropWhile p = cs.dropWhile p ++ c :: tail ∧ (cs ++ c :: tail).takeWhile p = cs.takeWhile p := by
  induction cs with
  | nil =>
    have hc : p c = false := h.resolve_left fun h => h rfl
    rw [List.nil_append, List.dropWhile_cons_of_neg (by simp [hc]), List.takeWhile_cons_of_neg (by simp [hc])]
    exact ⟨rfl, rfl⟩
  | cons d cs ih =>
    rw [List.cons_append]
    by_cases hd : p d = true
    · rw [List.dropWhile_cons_of_pos hd] at h
      rw [List.dropWhile_cons_of_pos hd, List.dropWhile_cons_of_pos hd, List.takeWhile_cons_of_pos hd,
        List.takeWhile_cons_of_pos hd]
      exact ⟨(ih h).1, congrArg _ (ih h).2⟩
    · rw [List.dropWhile_cons_of_neg hd, List.dropWhile_cons_of_neg hd, List.takeWhile_cons_of_neg hd,
        List.takeWhile_cons_of_neg hd]
      exact ⟨rfl, rfl⟩

theorem readName_eq {stop c : Char} {cs rest : List Char} (h : cs.dropWhile (· != stop) = c :: rest) :
    ∃ hr, readName stop cs = if Text.isIdentifier (cs.takeWhile (· != stop)) then
      .ok ⟨String.ofList (cs.takeWhile (· != stop)), rest, hr⟩ else .error .badGroupName := by
  refine ⟨length_lt_of_dropWhile h, ?_⟩
  unfold readName
  dsimp only
  split
  next h' =>
    rw [h] at h'
    cases h'
  next h' =>
    rw [h] at h'
    cases h'
    rfl

theorem readName_append (stop : Char) (cs : List Char) :
    Extends (')' :: tail) (readName stop cs) (readName stop (cs ++ ')' :: tail)) := by
  cases h : cs.dropWhile (· != stop) with
  | nil =>
    refine .congr (y := .error .badGroupName) ?_ rfl (.error _)
    unfold readName
    dsimp only
    split
    · rfl
    next h' =>
      rw [h] at h'
      cases h'
  | cons c rest =>
    obtain ⟨hdrop, htake⟩ := @span_append tail (· != stop) ')' cs (.inl (by rw [h]; exact List.cons_ne_nil _ _))
    rw [h, List.cons_append] at hdrop
    obtain ⟨_, h₁⟩ := readName_eq h
    obtain ⟨_, h₂⟩ := readName_eq hdrop
    refine .congr h₁ h₂ ?_
    split
    next hid =>
      rw [if_pos (htake ▸ hid)]
      exact .ok (congrArg String.ofList htake) rfl
    · exact .error _

theorem readOpening_of_ne {cs : List Char} (h : ∀ rest, cs ≠ '?' :: rest) :
    readOpening o cs = .ok ⟨.opening (.capture none), cs, Nat.lt_succ_self _⟩ :=
  readOpening.eq_7 o cs (fun _ => h _) (fun _ => h _) (fun _ => h _) (fun _ => h _) (fun _ => h _) h

theorem readOpening_append (cs : List Char) :
    Extends (')' :: tail) (readOpening o cs) (readOpening o (cs ++ ')' :: tail)) := by
  by_cases h : ∃ rest, cs = '?' :: rest
  · intro r hr
    unfold readOpening at hr
    split at hr
    · cases hr
      exact ⟨_, rfl, rfl, rfl⟩
    · cases hr
      exact ⟨_, rfl, rfl, rfl⟩
    · cases hr
      exact ⟨_, rfl, rfl, rfl⟩
    next rest => exact (readName_append tail '>' rest).map_weaken _ r hr
    next rest => exact (readName_append tail ')' rest).map_weaken _ r hr
    · cases hr
    next hno => exact absurd h fun ⟨rest, h⟩ => hno rest h
  · have hcs : ∀ rest, cs ≠ '?' :: rest := fun rest hrest => h ⟨rest, hrest⟩
    have hmore : ∀ rest, cs ++ ')' :: tail ≠ '?' :: rest := fun _ hrest => h (eq_cons_of_append (by decide) hrest)
    exact .congr (readOpening_of_ne o hcs) (readOpening_of_ne o hmore) (.ok rfl rfl)

/-! ### Quantifiers -/

theorem readTimes_append (min : Nat) (max : Option Nat) (cs : List Char) :
    (readTimes min max (cs ++ ')' :: tail)).value = (readTimes min max cs).value ∧
      (readTimes min max (cs ++ ')' :: tail)).rest = (readTimes min max cs).rest ++ ')' :: tail := by
  cases cs with
  | nil => exact ⟨rfl, rfl⟩
  | cons c cs =>
    by_cases hc : c = '?'
    · subst hc
      exact ⟨rfl, rfl⟩
    · rw [List.cons_append, readTimes.eq_2 _ _ _ fun r hr => hc (List.cons.inj hr).1,
        readTimes.eq_2 _ _ _ fun r hr => hc (List.cons.inj hr).1]
      exact ⟨rfl, rfl⟩

section Bounds

variable {cs mid rest : List Char}

theorem readBounds_one (h : cs.dropWhile Char.isDigit = '}' :: rest) :
    ∃ hr, readBounds cs = (digits? (cs.takeWhile Char.isDigit)).map fun n => ⟨(n, some n), rest, hr⟩ := by
  refine ⟨length_lt_of_dropWhile h, ?_⟩
  unfold readBounds
  dsimp only
  split
  next h' =>
    cases h.symm.trans h'
    rfl
  next h' => exact absurd (List.cons.inj (h.symm.trans h')).1 (by decide)
  next h' _ => exact absurd h (h' rest)

theorem readBounds_two (h : cs.dropWhile Char.isDigit = ',' :: mid) (h' : mid.dropWhile Char.isDigit = '}' :: rest) :
    ∃ hr, readBounds cs = some ⟨((digits? (cs.takeWhile Char.isDigit)).getD 0, digits? (mid.takeWhile Char.isDigit)),
      rest, hr⟩ := by
  refine ⟨Nat.lt_trans (length_lt_of_dropWhile h') (length_lt_of_dropWhile h), ?_⟩
  unfold readBounds
  dsimp only
  split
  next h₁ => exact absurd (List.cons.inj (h.symm.trans h₁)).1 (by decide)
  next h₁ =>
    cases h.symm.trans h₁
    split
    next h₂ =>
      cases h'.symm.trans h₂
      rfl
    next h₂ => exact absurd h' (h₂ rest)
  next h₁ => exact absurd h (h₁ mid)

theorem readBounds_none (h : ∀ rest, cs.dropWhile Char.isDigit ≠ '}' :: rest)
    (h' : ∀ mid rest, cs.dropWhile Char.isDigit = ',' :: mid → mid.dropWhile Char.isDigit ≠ '}' :: rest) :
    readBounds cs = none := by
  unfold readBounds
  dsimp only
  split
  next h₁ => exact absurd h₁ (h _)
  next h₁ =>
    split
    next h₂ => exact absurd h₂ (h' _ _ h₁)
    · rfl
  · rfl

theorem readBounds_append (cs : List Char) :
    (∀ r, readBounds cs = some r →
      ∃ r', readBounds (cs ++ ')' :: tail) = some r' ∧ r'.value = r.value ∧ r'.rest = r.rest ++ ')' :: tail) ∧
    (readBounds cs = none → readBounds (cs ++ ')' :: tail) = none) := by
  have hspan (cs : List Char) := @span_append tail Char.isDigit ')' cs (.inr rfl)
  by_cases h : ∃ rest, cs.dropWhile Char.isDigit = '}' :: rest
  · obtain ⟨rest, h⟩ := h
    obtain ⟨_, h₁⟩ := readBounds_one h
    have hdrop : (cs ++ ')' :: tail).dropWhile Char.isDigit = '}' :: (rest ++ ')' :: tail) := by
      rw [(hspan cs).1, h]
      rfl
    obtain ⟨_, h₂⟩ := readBounds_one hdrop
    rw [(hspan cs).2] at h₂
    rw [h₁, h₂]
    cases digits? (cs.takeWhile Char.isDigit) with
    | none => exact ⟨(fun r hr => by cases hr), fun _ => rfl⟩
    | some n =>
      refine ⟨fun r hr => ?_, fun hr => by cases hr⟩
      cases hr
      exact ⟨_, rfl, rfl, rfl⟩
  by_cases h' : ∃ mid rest, cs.dropWhile Char.isDigit = ',' :: mid ∧ mid.dropWhile Char.isDigit = '}' :: rest
  · obtain ⟨mid, rest, h, h'⟩ := h'
    obtain ⟨_, h₁⟩ := readBounds_two h h'
    have hdrop : (cs ++ ')' :: tail).dropWhile Char.isDigit = ',' :: (mid ++ ')' :: tail) := by
      rw [(hspan cs).1, h]
      rfl
    have hdrop' : (mid ++ ')' :: tail).dropWhile Char.isDigit = '}' :: (rest ++ ')' :: tail) := by
      rw [(hspan mid).1, h']
      rfl
    obtain ⟨_, h₂⟩ := readBounds_two hdrop hdrop'
    rw [(hspan cs).2, (hspan mid).2] at h₂
    rw [h₁, h₂]
    refine ⟨fun r hr => ?_, fun hr => by cases hr⟩
    cases hr
    exact ⟨_, rfl, rfl, rfl⟩
  · have h₁ : readBounds cs = none :=
      readBounds_none (fun rest hr => h ⟨rest, hr⟩) fun mid rest hm hr => h' ⟨mid, rest, hm, hr⟩
    have h₂ : readBounds (cs ++ ')' :: tail) = none := by
      refine readBounds_none (fun rest hr => ?_) fun mid rest hm hr => ?_
      · rw [(hspan cs).1] at hr
        obtain ⟨l, hl⟩ := eq_cons_of_append (by decide) hr
        exact h ⟨l, hl⟩
      · rw [(hspan cs).1] at hm
        obtain ⟨l, hl⟩ := eq_cons_of_append (by decide) hm
        rw [hl, List.cons_append] at hm
        rw [← (List.cons.inj hm).2, (hspan l).1] at hr
        obtain ⟨l', hl'⟩ := eq_cons_of_append (by decide) hr
        exact h' ⟨l, l', hl, hl'⟩
    rw [h₁, h₂]
    exact ⟨(fun r hr => by cases hr), fun _ => rfl⟩

end Bounds

theorem readBraces_append (cs : List Char) :
    Extends (')' :: tail) (readBraces o cs) (readBraces o (cs ++ ')' :: tail)) := by
  obtain ⟨hsome, hnone⟩ := readBounds_append tail cs
  unfold readBraces
  cases h : readBounds cs with
  | none =>
    rw [hnone h]
    exact .ok rfl rfl
  | some r =>
    obtain ⟨r', hr', hv, hrest⟩ := hsome r h
    rw [hr']
    dsimp only
    rw [hv]
    split
    · exact .error _
    · have h := readTimes_append tail r.value.1 r.value.2 r.rest
      rw [← hrest] at h
      exact .ok h.1 h.2

/-! ### The whole text -/

/-- What is read as the next piece does not depend on what follows a closing parenthesis. -/
theorem readPiece_append (c : Char) (cs : List Char) :
    Extends (')' :: tail) (readPiece o c cs) (readPiece o c (cs ++ ')' :: tail)) := by
  unfold readPiece
  dsimp only
  split
  next =>
    cases cs with
    | nil => exact .error _
    | cons d cs => exact (readEscape_append o tail d cs).map fun _ _ hv hr => ⟨hv, hr⟩
  next => exact (readSet_append o tail cs).map fun _ _ hv hr => ⟨congrArg _ hv, hr⟩
  next => exact readOpening_append o tail cs
  next => exact .ok rfl rfl
  next => exact .ok rfl rfl
  next => exact .ok (readTimes_append tail 0 none cs).1 (readTimes_append tail 0 none cs).2
  next => exact .ok (readTimes_append tail 1 none cs).1 (readTimes_append tail 1 none cs).2
  next => exact .ok (readTimes_append tail 0 (some 1) cs).1 (readTimes_append tail 0 (some 1) cs).2
  next => exact readBraces_append o tail cs
  all_goals exact .ok rfl rfl

/-- The pieces of a text that is not verbose: one at the front, and those of the rest. -/
theorem ofText_cons_eq_ok (plain : o.verbose = false) {c : Char} {cs : List Char} {ps : List Piece} :
    Piece.ofText o (c :: cs) = .ok ps ↔
      ∃ r qs, readPiece o c cs = .ok r ∧ Piece.ofText o r.rest = .ok qs ∧ ps = r.value :: qs := by
  have hskip : skip? o c cs = none := by
    unfold skip?
    rw [plain]
    rfl
  rw [Piece.ofText, hskip, Option.getD_none]
  constructor
  · intro h
    obtain ⟨r, hr, h⟩ := bind_eq_ok h
    obtain ⟨qs, hqs, h⟩ := bind_eq_ok h
    cases hc : readPiece o c cs with
    | error f =>
      rw [hc] at hr
      cases hr
    | ok r' =>
      rw [hc] at hr
      cases hr
      cases h
      exact ⟨r', qs, rfl, hqs, rfl⟩
  · rintro ⟨r, qs, hr, hqs, rfl⟩
    rw [hr]
    change (Piece.ofText o r.rest >>= _) = _
    rw [hqs]
    rfl

/-- The pieces of a text are the same before a closing parenthesis. -/
theorem ofText_append (plain : o.verbose = false) {cs : List Char} {ps qs : List Piece} (h : Piece.ofText o cs = .ok ps)
    (h' : Piece.ofText o tail = .ok qs) : Piece.ofText o (cs ++ ')' :: tail) = .ok (ps ++ .closing :: qs) := by
  induction hn : cs.length using Nat.strongRecOn generalizing cs ps with
  | ind n ih =>
    cases cs with
    | nil =>
      rw [Piece.ofText] at h
      cases h
      exact (ofText_cons_eq_ok o plain).2 ⟨⟨.closing, tail, Nat.lt_succ_self _⟩, qs, rfl, h', rfl⟩
    | cons c cs =>
      obtain ⟨r, ps', hr, hps', rfl⟩ := (ofText_cons_eq_ok o plain).1 h
      obtain ⟨r', hr', hv, hrest⟩ := readPiece_append o tail c cs r hr
      have hlt : r.rest.length < n := by
        rw [← hn]
        exact r.shorter
      refine (ofText_cons_eq_ok o plain).2 ⟨r', ps' ++ .closing :: qs, hr', ?_, ?_⟩
      · rw [hrest]
        exact ih _ hlt hps' rfl
      · rw [hv, List.cons_append]

/-- What begins with a question mark begins with a quantifier. -/
theorem question_ne_of_opening (plain : o.verbose = false) {cs rest : List Char} {b : Bracket} {ps : List Piece}
    (h : Piece.ofText o cs = .ok (.opening b :: ps)) : cs ≠ '?' :: rest := by
  rintro rfl
  obtain ⟨r, qs, hr, -, hps⟩ := (ofText_cons_eq_ok o plain).1 h
  cases hr
  have htimes : ∃ c, (readTimes 0 (some 1) rest).value = .times c := by
    unfold readTimes
    split
    · exact ⟨_, rfl⟩
    · exact ⟨_, rfl⟩
  obtain ⟨c, hc⟩ := htimes
  rw [hc] at hps
  cases hps

/-- A text that begins with a parenthesis reads, between parentheses, as its pieces between parentheses. -/
theorem ofText_bracketed (plain : o.verbose = false) {cs : List Char} {b : Bracket} {ps : List Piece}
    (h : Piece.ofText o cs = .ok (.opening b :: ps)) :
    Piece.ofText o ('(' :: cs ++ [')']) = .ok (bracketed (.capture none) (.opening b :: ps)) := by
  have hopen : ∀ rest, cs ++ [')'] ≠ '?' :: rest := by
    intro rest hrest
    obtain ⟨rest', hcs⟩ := eq_cons_of_append (by decide) hrest
    exact question_ne_of_opening o plain h hcs
  refine (ofText_cons_eq_ok o plain).2 ⟨_, _, readOpening_of_ne o hopen, ofText_append o [] plain h ?_, rfl⟩
  rw [Piece.ofText]

/-- An identifier ends at the mark that is no part of it. -/
theorem span_identifier {stop : Char} (hstop : Text.isIdentifierPart stop = false) {name : List Char}
    (h : Text.isIdentifier name = true) (rest : List Char) :
    (name ++ stop :: rest).takeWhile (· != stop) = name ∧
      (name ++ stop :: rest).dropWhile (· != stop) = stop :: rest := by
  have hall : ∀ c ∈ name, (c != stop) = true := by
    cases name with
    | nil => exact fun c hc => by cases hc
    | cons d name =>
      simp only [Text.isIdentifier, Bool.and_eq_true, List.all_eq_true] at h
      have hpart : ∀ c ∈ d :: name, Text.isIdentifierPart c = true :=
        List.forall_mem_cons.2 ⟨Text.isIdentifierPart_of_start h.1, h.2⟩
      intro c hc
      refine bne_iff_ne.2 fun heq => ?_
      rw [heq] at hc
      exact absurd (hpart stop hc) (by rw [hstop]; decide)
  constructor
  · rw [List.takeWhile_append_of_pos hall, List.takeWhile_cons_of_neg (by simp), List.append_nil]
  · rw [List.dropWhile_append_of_pos hall, List.dropWhile_cons_of_neg (by simp)]

namespace Choice

/-- The text of a named group around the text of an expression. -/
def spell (name : String) (cs : List Char) : List Char := '(' :: '?' :: 'P' :: '<' :: name.toList ++ '>' :: (cs ++ [')'])

/-- The texts of named groups with bars between them. -/
def spellAll : List (Choice × List Char) → List Char
  | [] => []
  | [(a, cs)] => spell a.name cs
  | (a, cs) :: rest => spell a.name cs ++ '|' :: spellAll rest

theorem ofText_spell (plain : o.verbose = false) {a : Choice} (hname : Text.isIdentifier a.name.toList = true)
    {cs tail : List Char} {qs : List Piece} (h : Piece.ofText o cs = .ok a.pieces)
    (h' : Piece.ofText o tail = .ok qs) : Piece.ofText o (spell a.name cs ++ tail) = .ok (a.written ++ qs) := by
  have hsplit : spell a.name cs ++ tail =
      '(' :: '?' :: 'P' :: '<' :: (a.name.toList ++ '>' :: (cs ++ ')' :: tail)) := by
    simp [spell]
  obtain ⟨htake, hdrop⟩ := @span_identifier '>' (by decide +kernel) _ hname (cs ++ ')' :: tail)
  obtain ⟨_, hread⟩ := readName_eq hdrop
  rw [htake, if_pos hname, String.ofList_toList] at hread
  have hopen : ∃ r, readPiece o '(' ('?' :: 'P' :: '<' :: (a.name.toList ++ '>' :: (cs ++ ')' :: tail))) = .ok r ∧
      r.value = .opening (.capture (some a.name)) ∧ r.rest = cs ++ ')' :: tail := by
    change ∃ r, Except.map _ (readName '>' _) = .ok r ∧ _
    rw [hread]
    exact ⟨_, rfl, rfl, rfl⟩
  obtain ⟨r, hr, hv, hrest⟩ := hopen
  rw [hsplit]
  refine (ofText_cons_eq_ok o plain).2 ⟨r, a.pieces ++ .closing :: qs, hr, ?_, ?_⟩
  · rw [hrest]
    exact ofText_append o tail plain h h'
  · rw [hv]
    simp [written, bracketed]

/-- The text of named groups with bars between them reads as these groups. -/
theorem ofText_spellAll (plain : o.verbose = false) (l : List (Choice × List Char))
    (h : ∀ x ∈ l, Text.isIdentifier x.1.name.toList = true ∧ Piece.ofText o x.2 = .ok x.1.pieces) :
    Piece.ofText o (spellAll l) = .ok (joined (l.map Prod.fst)) := by
  have hnil : Piece.ofText o [] = .ok [] := by rw [Piece.ofText]
  induction l with
  | nil => exact hnil
  | cons x l ih =>
    obtain ⟨a, cs⟩ := x
    obtain ⟨hname, hcs⟩ := h _ List.mem_cons_self
    cases l with
    | nil =>
      have := ofText_spell o plain hname hcs hnil
      rwa [List.append_nil, List.append_nil] at this
    | cons y l =>
      refine ofText_spell o plain hname hcs ?_
      refine (ofText_cons_eq_ok o plain).2 ⟨⟨.bar, spellAll (y :: l), Nat.lt_succ_self _⟩, _, rfl, ?_, rfl⟩
      exact ih fun x hx => h x (List.mem_cons_of_mem _ hx)

end Choice

end Lookahead.Pattern
