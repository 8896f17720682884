import Lookahead.Proofs.Operations
import Lookahead.Filter.Rule

/-!
# Pending tokens

`Lexer.pending l n` lists the current token and the tokens that the next `n` pulls give, up to the end. `Judge.sift p`
is what a filter `p` keeps of such a list when it is asked about each token once, from the left; a token in front that
claims the end is kept without a question. Both are compatible with concatenation (`Judge.sieve_append`,
`Feed.tokens_add`), so that they can be read off piece by piece, as a lexer does.
-/

namespace Lookahead

namespace Judge

variable {φ : Type} [Judge φ]

/-! ### Filtering a list -/

/-- The token is kept. Without a filter every token is, and what fails keeps nothing. -/
def keeps : Option φ → Token → Bool
  | none, _ => true
  | some f, t =>
    match (judge f none t).1 with
    | .ok b => b
    | .error _ => false

/-- The filter after a question. -/
def after (p : Option φ) (t : Token) : Option φ := p.map fun f => (judge f none t).2

/-- The filter after questions about all tokens of a list. -/
def asked (p : Option φ) (ts : List Token) : Option φ := ts.foldl after p

/-- The tokens that a filter keeps when it is asked about one after the other. -/
def sieve : Option φ → List Token → List Token
  | _, [] => []
  | p, t :: ts => if keeps p t then t :: sieve (after p t) ts else sieve (after p t) ts

/-- What a filter keeps of the pending tokens of a lexer. -/
def sift (p : Option φ) : List Token → List Token
  | [] => []
  | t :: ts => if t.isEof then t :: sieve p ts else sieve p (t :: ts)

/-- The tokens that a filter is asked about. -/
def questioned : List Token → List Token
  | [] => []
  | t :: ts => if t.isEof then ts else t :: ts

theorem questioned_singleton (t : Token) : questioned [t] = if t.isEof then [] else [t] := rfl

theorem questioned_cons (t : Token) (ts : List Token) : questioned (t :: ts) = questioned [t] ++ ts := by
  rw [questioned_singleton, questioned]
  split <;> rfl

/-- Whatever it was asked before, the filter answers, and does not look at the lexer. -/
def Calm (p : Option φ) : Prop :=
  ∀ ts f, asked p ts = some f → ∀ view t, judge f view t = (.ok (keeps (some f) t), (judge f none t).2)

theorem asked_append (p : Option φ) (ts us : List Token) : asked p (ts ++ us) = asked (asked p ts) us :=
  List.foldl_append

theorem asked_isSome (p : Option φ) (ts : List Token) : (asked p ts).isSome = p.isSome := by
  induction ts generalizing p with
  | nil => rfl
  | cons t ts ih =>
    show (asked (after p t) ts).isSome = p.isSome
    rw [ih]
    simp [after]

theorem sieve_append (p : Option φ) (ts us : List Token) :
    sieve p (ts ++ us) = sieve p ts ++ sieve (asked p ts) us := by
  induction ts generalizing p with
  | nil => rfl
  | cons t ts ih =>
    have hu : asked p (t :: ts) = asked (after p t) ts := rfl
    simp only [List.cons_append, sieve, ih, hu]
    split <;> rfl

theorem sieve_prefix (p : Option φ) {ts us : List Token} (h : ts <+: us) : sieve p ts <+: sieve p us := by
  obtain ⟨vs, rfl⟩ := h
  rw [sieve_append]
  exact List.prefix_append _ _

/-- Only a token in front that claims the end makes a difference. -/
theorem sift_cons (p : Option φ) (t : Token) (ts : List Token) :
    sift p (t :: ts) = if t.isEof then t :: sieve p ts
      else if keeps p t then t :: sieve (after p t) ts else sieve (after p t) ts := rfl

theorem Calm.asked {p : Option φ} (h : Calm p) (ts : List Token) : Calm (asked p ts) := by
  intro us f hf
  exact h (ts ++ us) f (by rw [asked_append, hf])

/-- A filter is calm if it has a property with which it answers, whatever it sees of the lexer, and which it keeps. -/
theorem Calm.of_invariant {P : φ → Prop}
    (h : ∀ f, P f → ∀ t, ∃ b g, P g ∧ ∀ view, judge f view t = (.ok b, g)) {f : φ} (hf : P f) : Calm (some f) := by
  have hasked : ∀ ts f, P f → ∃ g, P g ∧ Judge.asked (some f) ts = some g := by
    intro ts
    induction ts with
    | nil => exact fun f hf => ⟨f, hf, rfl⟩
    | cons t ts ih =>
      intro f hf
      obtain ⟨b, g, hg, hj⟩ := h f hf t
      have ha : Judge.asked (some f) (t :: ts) = Judge.asked (some g) ts := by
        change List.foldl after (after (some f) t) ts = _
        rw [after, Option.map_some, hj]
        rfl
      rw [ha]
      exact ih g hg
  intro ts g hg view t
  obtain ⟨g', hP, hg'⟩ := hasked ts f hf
  cases hg.symm.trans hg'
  obtain ⟨b, k, -, hj⟩ := h g hP t
  rw [hj, keeps, hj]

end Judge

/-! ### Rules -/

/-- The rule never fails, and does not look at the lexer. -/
def Rule.isCalm : Rule → Bool
  | raise _ _ => false
  | unlikeCurrent => false
  | unlikePrevious => false
  | not r => r.isCalm
  | both r s => r.isCalm && s.isCalm
  | either r s => r.isCalm && s.isCalm
  | _ => true

theorem Rule.judge_of_isCalm {r : Rule} (h : r.isCalm = true) (t : Token) :
    ∃ b s, s.isCalm = true ∧ ∀ view, r.judge view t = (.ok b, s) := by
  induction r with
  | raise => cases h
  | unlikeCurrent => cases h
  | unlikePrevious => cases h
  | not r ih =>
    obtain ⟨b, s, hs, hj⟩ := ih h
    exact ⟨!b, .not s, hs, fun view => by rw [judge, hj]⟩
  | both r s ihr ihs =>
    simp only [isCalm, Bool.and_eq_true] at h
    obtain ⟨b, r', hr, hjr⟩ := ihr h.1
    obtain ⟨c, s', hs, hjs⟩ := ihs h.2
    cases b with
    | false => exact ⟨false, .both r' s, by simp [isCalm, hr, h.2], fun view => by rw [judge, hjr]⟩
    | true => exact ⟨c, .both r' s', by simp [isCalm, hr, hs], fun view => by rw [judge, hjr, hjs]⟩
  | either r s ihr ihs =>
    simp only [isCalm, Bool.and_eq_true] at h
    obtain ⟨b, r', hr, hjr⟩ := ihr h.1
    obtain ⟨c, s', hs, hjs⟩ := ihs h.2
    cases b with
    | false => exact ⟨c, .either r' s', by simp [isCalm, hr, hs], fun view => by rw [judge, hjr, hjs]⟩
    | true => exact ⟨true, .either r' s, by simp [isCalm, hr, h.2], fun view => by rw [judge, hjr]⟩
  | _ => exact ⟨_, _, rfl, fun view => rfl⟩

theorem Filter.calm {f : Filter} (h : f.rule.isCalm = true) : Judge.Calm (some f) := by
  refine Judge.Calm.of_invariant (P := fun f => f.rule.isCalm = true) (fun f hf t => ?_) h
  obtain ⟨b, s, hs, hj⟩ := Rule.judge_of_isCalm hf t
  refine ⟨b, { f with rule := s }, hs, fun view => ?_⟩
  rw [Filter.judge_eq, hj]

/-! ### Tokens ahead -/

/-- No pull and no conversion fails, for a reader of the text `s`. -/
def Feed.Smooth (s : Source) (f : Feed) : Prop := ∀ k, ∃ t?, (f.outcome k).read s = .ok t?

theorem Feed.Smooth.congr {s : Source} {f g : Feed} (h : f.Smooth s) (ho : g.outcome = f.outcome) : g.Smooth s := by
  intro k
  rw [ho]
  exact h k

/-- The tokens that the next pulls give, up to the end. -/
def Feed.tokens (s : Source) : Nat → Feed → List Token
  | 0, _ => []
  | n + 1, f =>
    match f.next.1.read s with
    | .ok (some t) => t :: tokens s n f.next.2
    | _ => []

namespace Feed

theorem tokens_prefix (s : Source) (f : Feed) (m n : Nat) : f.tokens s m <+: f.tokens s (m + n) := by
  induction m generalizing f with
  | zero => exact List.nil_prefix
  | succ m ih =>
    rw [Nat.add_right_comm]
    unfold tokens
    split
    · exact (List.prefix_cons_inj _).2 (ih _)
    · exact List.prefix_rfl

theorem tokens_of_short {s : Source} {f : Feed} {m : Nat} (h : (f.tokens s m).length < m) (n : Nat) :
    f.tokens s (m + n) = f.tokens s m := by
  induction m generalizing f with
  | zero => exact absurd h (Nat.not_lt_zero _)
  | succ m ih =>
    rw [Nat.add_right_comm]
    unfold tokens at h ⊢
    split
    · rename_i t ht
      simp only [ht, List.length_cons, Nat.add_lt_add_iff_right] at h
      rw [ih h]
    · rfl

end Feed

namespace Intake

variable {φ : Type}

/-- The tokens that the next `n` pulls give, up to the end. -/
def ahead (i : Intake φ) (n : Nat) : List Token := if i.exhausted then [] else i.feed.tokens i.source n

theorem ahead_zero (i : Intake φ) : i.ahead 0 = [] := by
  unfold ahead
  split <;> rfl

theorem ahead_of_exhausted {i : Intake φ} (h : i.exhausted = true) (n : Nat) : i.ahead n = [] := if_pos h

/-- What is ahead depends on the text, the feed and the end only. -/
theorem ahead_congr {i j : Intake φ} (hs : j.source = i.source) (hf : j.feed = i.feed)
    (hx : j.exhausted = i.exhausted) : j.ahead = i.ahead := by
  funext n
  unfold ahead
  rw [hs, hf, hx]

theorem ahead_of_ended {i : Intake φ} (hu : i.upcoming = .ok none) (n : Nat) : i.ahead n = [] := by
  unfold ahead
  split
  · rfl
  · cases n with
    | zero => rfl
    | succ n =>
      unfold Feed.tokens
      rw [show i.feed.next.1.read i.source = .ok none from hu]

/-- A token that is pulled was the first ahead. -/
theorem ahead_succ {i j : Intake φ} (hx : i.exhausted = false) {t : Token} (hu : i.upcoming = .ok (some t))
    (hs : j.source = i.source) (hf : j.feed = i.feed.next.2) (hj : j.exhausted = false) (n : Nat) :
    i.ahead (n + 1) = t :: j.ahead n := by
  unfold ahead
  simp only [hx, hj, Bool.false_eq_true, ↓reduceIte, hs, hf]
  conv => lhs; unfold Feed.tokens
  rw [show i.feed.next.1.read i.source = .ok (some t) from hu]

theorem ahead_prefix (i : Intake φ) (m n : Nat) : i.ahead m <+: i.ahead (m + n) := by
  unfold ahead
  split
  · exact List.prefix_rfl
  · exact Feed.tokens_prefix i.source i.feed m n

/-- Fewer tokens than pulls: the end is among them. -/
theorem ahead_of_short {i : Intake φ} {m : Nat} (h : (i.ahead m).length < m) (n : Nat) :
    i.ahead (m + n) = i.ahead m := by
  unfold ahead at h ⊢
  split
  · rfl
  · rename_i hx
    rw [if_neg hx] at h
    exact Feed.tokens_of_short h n

end Intake

/-- The current token, and the tokens that the next `n` pulls give, up to the end. -/
def Lexer.pending {φ : Type} (l : Lexer φ) (n : Nat) : List Token := l.current :: l.intake.ahead n

end Lookahead
