import Mathlib.Data.List.SplitBy
import Lookahead.Proofs.EndOfInput
import Lookahead.Proofs.Retrying

/-!
# Filters that look at the current token

A filter that keeps the tokens of another group than the current one sees the old current token as long as a lexer
pulls, and the lexer stays on it if that fails. So what is read behind such a filter are the first tokens of the runs of
tokens of one group (`Lexer.unlike_current_gives_firsts`). `Intake.Ahead` says which items are still to come;
`Fetches.ahead` tells what a search for the next token does to them, and what it leaves out is a run.
-/

namespace Lookahead

/-! ### Runs of one group -/

namespace Token

/-- The first tokens of the runs of tokens of one group. -/
def firsts (ts : List Token) : List Token := (ts.splitBy fun t u => t.group == u.group).filterMap List.head?

/-- The first tokens of the runs behind a token `c`, if the run of `c` goes on. -/
def firstsBehind (c : Token) (ts : List Token) : List Token := firsts (ts.dropWhile fun t => t.group == c.group)

theorem firstsBehind_nil (c : Token) : firstsBehind c [] = [] := rfl

/-- The first run is as long as the group is that of its first token. -/
theorem firsts_cons (t : Token) (ts : List Token) : firsts (t :: ts) = t :: firstsBehind t ts := by
  let run := t :: ts.takeWhile fun u => u.group == t.group
  let rest := ts.dropWhile fun u => u.group == t.group
  have hsplit : t :: ts = run ++ rest := congrArg (t :: ·) List.takeWhile_append_dropWhile.symm
  have hrun : ∀ u ∈ run, u.group = t.group := by
    refine List.forall_mem_cons.2 ⟨rfl, fun u hu => ?_⟩
    exact eq_of_beq (List.all_eq_true.1 List.all_takeWhile u hu)
  have hchain : run.IsChain fun u v => (u.group == v.group) = true := by
    refine (List.pairwise_iff_forall_sublist.2 fun {u v} huv => ?_).isChain
    have hu := hrun u (huv.subset (by simp))
    have hv := hrun v (huv.subset (by simp))
    rw [hu, hv, beq_self_eq_true]
  have hend : ∀ u ∈ run.getLast?, ∀ v ∈ rest.head?, (u.group == v.group) = false := by
    intro u hu v hv
    have hne := List.head?_dropWhile_not (fun w : Token => w.group == t.group) ts
    rw [Option.mem_def.1 hv] at hne
    rw [hrun u (List.mem_of_getLast? hu), Bool.beq_comm]
    simpa using hne
  unfold firsts
  rw [hsplit, List.splitBy_append hend, List.splitBy_of_isChain (List.cons_ne_nil _ _) hchain]
  rfl

theorem firstsBehind_cons_of_eq {c t : Token} (h : t.group = c.group) (ts : List Token) :
    firstsBehind c (t :: ts) = firstsBehind c ts := by
  unfold firstsBehind
  rw [List.dropWhile_cons_of_pos (by simpa using h)]

theorem firstsBehind_cons_of_ne {c t : Token} (h : t.group ≠ c.group) (ts : List Token) :
    firstsBehind c (t :: ts) = t :: firstsBehind t ts := by
  rw [← firsts_cons, firstsBehind, List.dropWhile_cons_of_neg (by simpa using h)]

/-- A token that is left behind the run of `c` is of another group. -/
theorem group_ne_of_dropWhile {c t : Token} {ts rest : List Token}
    (h : (ts.dropWhile fun u => u.group == c.group) = t :: rest) : t.group ≠ c.group ∧ rest.length < ts.length := by
  have hne := List.head?_dropWhile_not (fun u : Token => u.group == c.group) ts
  have hlength := (List.dropWhile_suffix (l := ts) fun u => u.group == c.group).length_le
  rw [h] at hne hlength
  exact ⟨by simpa using hne, hlength⟩

theorem isChain_firsts (ts : List Token) : (firsts ts).IsChain fun t u => t.group ≠ u.group := by
  generalize hn : ts.length = n
  induction n using Nat.strongRecOn generalizing ts with
  | ind n ih =>
    cases ts with
    | nil => exact .nil
    | cons t ts =>
      rw [firsts_cons, firstsBehind]
      cases hrest : ts.dropWhile fun u => u.group == t.group with
      | nil => exact .singleton t
      | cons u rest =>
        obtain ⟨hne, hlt⟩ := group_ne_of_dropWhile hrest
        have hchain := ih (u :: rest).length (by simp only [List.length_cons] at hn ⊢; omega) (u :: rest) rfl
        rw [firsts_cons] at hchain ⊢
        exact .cons_cons (Ne.symm hne) hchain

/-- What is left behind the run of `c` begins with a token of another group. -/
theorem head?_firstsBehind {c : Token} {ts : List Token} : ∀ t ∈ (firstsBehind c ts).head?, t.group ≠ c.group := by
  intro t ht
  unfold firstsBehind at ht
  cases hrest : ts.dropWhile fun u => u.group == c.group with
  | nil =>
    rw [hrest] at ht
    cases ht
  | cons u rest =>
    rw [hrest, firsts_cons] at ht
    obtain rfl : u = t := Option.some.inj ht
    exact (group_ne_of_dropWhile hrest).1

theorem isChain_firstsBehind (c : Token) (ts : List Token) :
    (firstsBehind c ts).IsChain fun t u => t.group ≠ u.group := isChain_firsts _

end Token

/-! ### Items to come -/

namespace Pull

/-- The tokens of some items up to the end, without those that fail. -/
def tokens (s : Source) : List Pull → List Token
  | [] => []
  | a :: as =>
    match a.read s with
    | .error _ => tokens s as
    | .ok none => []
    | .ok (some t) => t :: tokens s as

/-- The failures of some items up to the end. -/
def failures (s : Source) : List Pull → List Failure
  | [] => []
  | a :: as =>
    match a.read s with
    | .error f => f :: failures s as
    | .ok none => []
    | .ok (some _) => failures s as

variable {s : Source} {a : Pull} {as : List Pull}

theorem tokens_of_error {f : Failure} (h : a.read s = .error f) : tokens s (a :: as) = tokens s as := by
  rw [tokens, h]

theorem failures_of_error {f : Failure} (h : a.read s = .error f) : failures s (a :: as) = f :: failures s as := by
  rw [failures, h]

theorem tokens_of_end (h : a.read s = .ok none) : tokens s (a :: as) = [] := by rw [tokens, h]

theorem failures_of_end (h : a.read s = .ok none) : failures s (a :: as) = [] := by rw [failures, h]

theorem tokens_of_token {t : Token} (h : a.read s = .ok (some t)) : tokens s (a :: as) = t :: tokens s as := by
  rw [tokens, h]

theorem failures_of_token {t : Token} (h : a.read s = .ok (some t)) : failures s (a :: as) = failures s as := by
  rw [failures, h]

/-- The items that fail count for nothing. -/
theorem tokens_filter (as : List Pull) : tokens s (as.filter fun a => (a.read s).isOk) = tokens s as := by
  induction as with
  | nil => rfl
  | cons a as ih =>
    rcases hr : a.read s with f | _ | t
    · rw [List.filter_cons_of_neg (by simp [hr, Except.isOk, Except.toBool]), ih, tokens_of_error hr]
    · rw [List.filter_cons_of_pos (by simp [hr, Except.isOk, Except.toBool]), tokens_of_end hr, tokens_of_end hr]
    · rw [List.filter_cons_of_pos (by simp [hr, Except.isOk, Except.toBool]), tokens_of_token hr, tokens_of_token hr,
        ih]

end Pull

/-- The filter keeps the tokens of another group than the current one, and does not change. -/
def Judge.Contrasts {φ : Type} [Judge φ] (f : φ) : Prop :=
  ∀ view t, judge f (some view) t = (.ok (view.current.group != t.group), f)

theorem Filter.contrasts {f : Filter} (h : f.rule = .unlikeCurrent) : Judge.Contrasts f := by
  intro view t
  rcases f with ⟨label, rule⟩
  cases h
  rfl

namespace Intake

variable {φ : Type}

/-- The filter `f` is in force, and the items to come are those of a list; after the end there are none. -/
structure Ahead (s : Source) (f : φ) (items : List Pull) (i : Intake φ) : Prop where
  source_eq : i.source = s
  filter_eq : i.filter = some f
  items_eq : i.exhausted = true → items = []
  holds : i.exhausted = false → i.feed.Holds items

variable [Judge φ] {s : Source} {f : φ} {items : List Pull} {v : View} {i j : Intake φ}

theorem judge_of_contrasts (contrasts : Judge.Contrasts f) (h : i.filter = some f) (t : Token) :
    i.judge (some v) t =
      (.ok (v.current.group != t.group), i.note (.judged f t (.ok (v.current.group != t.group)))) := by
  rw [judge_of_some h, contrasts v t, putFilter_self h]

/-- What a pull makes of some items, if the current token is `c`. -/
inductive Takes (s : Source) (c : Token) : List Pull → Fate → List Pull → Prop
  | ended {items : List Pull} (htokens : Pull.tokens s items = []) (hfailures : Pull.failures s items = []) :
    Takes s c items .ended []
  | lost {a : Pull} {rest : List Pull} {g : Failure} (h : a.read s = .error g) : Takes s c (a :: rest) (.lost g) rest
  | rejected {a : Pull} {rest : List Pull} {t : Token} (h : a.read s = .ok (some t)) (hg : t.group = c.group) :
    Takes s c (a :: rest) (.rejected t) rest
  | kept {a : Pull} {rest : List Pull} {t : Token} (h : a.read s = .ok (some t)) (hg : t.group ≠ c.group) :
    Takes s c (a :: rest) (.kept t) rest

omit [Judge φ] in
/-- If the next pull does not mean the end, there is an item that it means. -/
private theorem Ahead.upcoming (h : i.Ahead s f items) (hx : i.exhausted = false) :
    (i.upcoming = .ok none → Pull.tokens s items = [] ∧ Pull.failures s items = []) ∧
      (i.upcoming ≠ .ok none → ∃ a rest, items = a :: rest ∧ a.read s = i.upcoming ∧ i.onward.feed.Holds rest) := by
  have hnext := (h.holds hx).next_fst
  have hrest := (h.holds hx).next_snd
  unfold Intake.upcoming
  rw [h.source_eq, hnext]
  cases items with
  | nil => exact ⟨fun _ => ⟨rfl, rfl⟩, fun hne => absurd rfl hne⟩
  | cons a rest =>
    exact ⟨fun hu => ⟨Pull.tokens_of_end hu, Pull.failures_of_end hu⟩, fun _ => ⟨a, rest, rfl, rfl, hrest⟩⟩

private theorem Draws.ahead {fate : Fate} (d : Draws (some v) i fate j) (contrasts : Judge.Contrasts f)
    (h : i.Ahead s f items) (hx : i.exhausted = false) :
    ∃ items', Takes s v.current items fate items' ∧ j.Ahead s f items' := by
  obtain ⟨hend, hitem⟩ := h.upcoming hx
  have hopen : ∀ {rest : List Pull} {k : Intake φ}, k.source = i.source → k.filter = i.filter →
      k.exhausted = i.exhausted → k.feed = i.onward.feed → i.onward.feed.Holds rest → k.Ahead s f rest := by
    intro rest k hs hf hk hfeed hrest
    refine ⟨hs.trans h.source_eq, hf.trans h.filter_eq, fun he => ?_, fun _ => by rwa [hfeed]⟩
    rw [hk, hx] at he
    cases he
  have hjudge := judge_of_contrasts (v := v) contrasts (i := i.onward) h.filter_eq
  cases d with
  | ended hu =>
    obtain ⟨htokens, hfailures⟩ := hend hu
    exact ⟨[], .ended htokens hfailures, h.source_eq, h.filter_eq, fun _ => rfl, fun he => by cases he⟩
  | unread hu =>
    obtain ⟨a, rest, rfl, ha, hrest⟩ := hitem (by simp [hu])
    exact ⟨rest, .lost (ha.trans hu), hopen rfl rfl rfl rfl hrest⟩
  | unjudged hu hj =>
    rw [hjudge] at hj
    cases hj
  | rejected hu hj =>
    obtain ⟨a, rest, rfl, ha, hrest⟩ := hitem (by simp [hu])
    rw [hjudge] at hj
    obtain ⟨hb, rfl⟩ := Prod.mk.inj hj
    refine ⟨rest, .rejected (ha.trans hu) ?_, hopen rfl rfl rfl rfl hrest⟩
    exact Eq.symm (by simpa using Except.ok.inj hb)
  | kept hu hj =>
    obtain ⟨a, rest, rfl, ha, hrest⟩ := hitem (by simp [hu])
    rw [hjudge] at hj
    obtain ⟨hb, rfl⟩ := Prod.mk.inj hj
    refine ⟨rest, .kept (ha.trans hu) ?_, hopen rfl rfl rfl rfl hrest⟩
    have hne : v.current.group ≠ _ := bne_iff_ne.1 (Except.ok.inj hb)
    exact Ne.symm hne

/-- What a search behind the token `c` makes of some items. It leaves out the run of `c` and gives the first token
behind it, or finds the end; or it fails with an item, and what is behind the run is still to come. -/
def Searches (s : Source) (c : Token) (items items' : List Pull) : Except Halt Token → Bool → Prop
  | .ok t, true =>
    items' = [] ∧ Pull.failures s items = [] ∧ t = .eof s ∧ Token.firstsBehind c (Pull.tokens s items) = []
  | .ok t, false => Pull.failures s items = Pull.failures s items' ∧
      Token.firstsBehind c (Pull.tokens s items) = t :: Token.firstsBehind t (Pull.tokens s items')
  | .error e, exhausted => exhausted = false ∧ ∃ g, e = .failed g ∧
      Pull.failures s items = g :: Pull.failures s items' ∧
      Token.firstsBehind c (Pull.tokens s items) = Token.firstsBehind c (Pull.tokens s items')

theorem Searches.of_rejected {a : Pull} {items items' : List Pull} {c t : Token} {r : Except Halt Token} {x : Bool}
    (h : Searches s c items items' r x) (ha : a.read s = .ok (some t)) (hg : t.group = c.group) :
    Searches s c (a :: items) items' r x := by
  have htokens : Token.firstsBehind c (Pull.tokens s (a :: items)) = Token.firstsBehind c (Pull.tokens s items) := by
    rw [Pull.tokens_of_token ha, Token.firstsBehind_cons_of_eq hg]
  unfold Searches at h ⊢
  rwa [htokens, Pull.failures_of_token ha]

theorem Fetches.ahead {n : Nat} {r : Except Halt Token} (hf : Fetches (some v) n i r j)
    (contrasts : Judge.Contrasts f) (h : i.Ahead s f items) (hn : items.length < n) :
    ∃ items', j.Ahead s f items' ∧ items'.length ≤ items.length ∧
      Searches s v.current items items' r j.exhausted := by
  induction hf generalizing items with
  | exhausted hx =>
    obtain rfl := h.items_eq hx
    rw [hx]
    exact ⟨[], h, Nat.le_refl _, rfl, rfl, congrArg Token.eof h.source_eq, rfl⟩
  | impatient => exact absurd hn (Nat.not_lt_zero _)
  | ended hx d =>
    obtain ⟨items', hm, hj⟩ := d.ahead contrasts h hx
    cases hm with
    | ended htokens hfailures =>
      rw [d.exhausted_eq hx]
      refine ⟨[], hj, Nat.zero_le _, rfl, hfailures, congrArg Token.eof hj.source_eq, ?_⟩
      rw [htokens, Token.firstsBehind_nil]
  | lost hx d =>
    obtain ⟨items', hm, hj⟩ := d.ahead contrasts h hx
    cases hm with
    | lost ha =>
      rw [d.exhausted_eq hx]
      refine ⟨items', hj, Nat.le_succ _, rfl, _, rfl, Pull.failures_of_error ha, ?_⟩
      rw [Pull.tokens_of_error ha]
  | kept hx d =>
    obtain ⟨items', hm, hj⟩ := d.ahead contrasts h hx
    cases hm with
    | kept ha hg =>
      rw [d.exhausted_eq hx]
      refine ⟨items', hj, Nat.le_succ _, Pull.failures_of_token ha, ?_⟩
      rw [Pull.tokens_of_token ha, Token.firstsBehind_cons_of_ne hg]
  | rejected hx d rest ih =>
    obtain ⟨items', hm, hj⟩ := d.ahead contrasts h hx
    cases hm with
    | rejected ha hg =>
      obtain ⟨items'', hk, hle, hs⟩ := ih hj (Nat.lt_of_succ_lt_succ hn)
      exact ⟨items'', hk, Nat.le_succ_of_le hle, hs.of_rejected ha hg⟩

end Intake

namespace Lexer

variable {φ : Type} [Judge φ] {s : Source} {f : φ} {items : List Pull} {l : Lexer φ} {patience : Nat}

/-! ### Calls that are made again if they fail -/

/-- Makes a call until it does not fail, at most `tries` times more. -/
def insist (patience : Nat) (c : Call φ) : Nat → Lexer φ → Except Halt Answer × Lexer φ
  | 0, l => l.call patience c
  | tries + 1, l =>
    match l.call patience c with
    | (.ok a, l) => (.ok a, l)
    | (.error _, l) => insist patience c tries l

/-- Makes calls one after the other, each until it does not fail. -/
def insistAll (patience tries : Nat) : Lexer φ → List (Call φ) → List (Except Halt Answer) × Lexer φ
  | l, [] => ([], l)
  | l, c :: cs =>
    let (a, l) := l.insist patience c tries
    let (as, l) := insistAll patience tries l cs
    (a :: as, l)

theorem insistAll_zero (patience : Nat) (l : Lexer φ) (cs : List (Call φ)) :
    l.insistAll patience 0 cs = l.run patience cs := by
  induction cs generalizing l with
  | nil => rfl
  | cons c cs ih =>
    simp only [insistAll, run, insist]
    rw [ih]

/-- A call that succeeds, or fails with less failures before it, succeeds if it is made again for each of them. -/
private theorem insist_ok {c : Call φ} {P : Nat → Lexer φ → Prop} {Q : Answer → Lexer φ → Prop}
    (h : ∀ {n l}, P n l → (∃ a l', l.call patience c = (.ok a, l') ∧ Q a l') ∨
      ∃ e l', l.call patience c = (.error e, l') ∧ ∃ m < n, P m l')
    {n tries : Nat} (hl : P n l) (hn : n ≤ tries) :
    ∃ a l', l.insist patience c tries = (.ok a, l') ∧ Q a l' := by
  induction tries generalizing l n with
  | zero =>
    rcases h hl with hok | ⟨e, l', hc, m, hm, -⟩
    · exact hok
    · omega
  | succ tries ih =>
    unfold insist
    rcases h hl with ⟨a, l', hc, hQ⟩ | ⟨e, l', hc, m, hm, hl'⟩
    · rw [hc]
      exact ⟨a, l', rfl, hQ⟩
    · rw [hc]
      exact ih hl' (by omega)

/-! ### Reading on -/

/-- The filter `f` is in force, and behind the current token `ts` will be read; on the way `n` items fail. -/
def Reads (patience : Nat) (s : Source) (f : φ) (n : Nat) (ts : List Token) (l : Lexer φ) : Prop :=
  ∃ items, l.intake.Ahead s f items ∧ items.length < patience ∧ (Pull.failures s items).length = n ∧
    Token.firstsBehind l.current (Pull.tokens s items) = ts

/-- The lexer is not at its end, and behind the current token there are `ts` to read for a filter that contrasts with
it; on the way `n` items fail. -/
def Faces (patience : Nat) (s : Source) (n : Nat) (ts : List Token) (l : Lexer φ) : Prop :=
  l.atEnd = false ∧ l.intake.exhausted = false ∧ l.intake.source = s ∧
    ∃ items, l.intake.feed.Holds items ∧ items.length < patience ∧ (Pull.failures s items).length = n ∧
      Token.firstsBehind l.current (Pull.tokens s items) = ts

variable {n : Nat} {ts : List Token} {v : View} {i j : Intake φ}

/-- A search that gave a token gave the first of those that were to be read. -/
private theorem Reads.of_fetches {t : Token} (contrasts : Judge.Contrasts f) (hi : i.Ahead s f items)
    (hn : items.length < patience) (hf : Intake.Fetches (some v) patience i (.ok t) j) (previous : Option Token)
    (handler : Handler φ) (e : Event φ) :
    let ts := Token.firstsBehind v.current (Pull.tokens s items)
    t = ts.headD (.eof s) ∧
      ∃ m ≤ (Pull.failures s items).length, Reads patience s f m ts.tail ⟨j.note e, previous, t, handler⟩ := by
  obtain ⟨items', hj, hle, hs⟩ := hf.ahead contrasts hi hn
  have hahead : (j.note e).Ahead s f items' := ⟨hj.source_eq, hj.filter_eq, hj.items_eq, hj.holds⟩
  have hn' : items'.length < patience := Nat.lt_of_le_of_lt hle hn
  cases hx : j.exhausted with
  | true =>
    rw [hx] at hs
    obtain ⟨rfl, hfailures, rfl, hts⟩ := hs
    rw [hfailures, hts]
    exact ⟨rfl, 0, Nat.le_refl _, [], hahead, hn', rfl, rfl⟩
  | false =>
    rw [hx] at hs
    obtain ⟨hfailures, hts⟩ := hs
    rw [hfailures, hts]
    exact ⟨rfl, _, Nat.le_refl _, items', hahead, hn', rfl, rfl⟩

/-- A search that failed left one failure less, and all that was to be read. -/
private theorem Reads.of_halted {e : Halt} (contrasts : Judge.Contrasts f) (hi : i.Ahead s f items)
    (hn : items.length < patience) (hf : Intake.Fetches (some v) patience i (.error e) j) :
    j.exhausted = false ∧ ∃ items', j.Ahead s f items' ∧ items'.length < patience ∧
      (Pull.failures s items').length < (Pull.failures s items).length ∧
      Token.firstsBehind v.current (Pull.tokens s items') = Token.firstsBehind v.current (Pull.tokens s items) := by
  obtain ⟨items', hj, hle, hx, g, -, hfailures, hts⟩ := hf.ahead contrasts hi hn
  refine ⟨hx, items', hj, Nat.lt_of_le_of_lt hle hn, ?_, hts.symm⟩
  rw [hfailures]
  exact Nat.lt_succ_self _

private theorem Reads.advance (contrasts : Judge.Contrasts f) (h : Reads patience s f n ts l) :
    (∃ l', l.advance patience = (.ok l.current, l') ∧ l'.current = ts.headD (.eof s) ∧
      ∃ m ≤ n, Reads patience s f m ts.tail l') ∨
    ∃ e l', l.advance patience = (.error e, l') ∧ ∃ m < n, l'.current = l.current ∧ Reads patience s f m ts l' := by
  obtain ⟨items, hi, hn, rfl, rfl⟩ := h
  have ha := l.advance_advances patience
  rcases hr : l.advance patience with ⟨r, l'⟩
  rw [hr] at ha
  cases ha with
  | moved hf => exact .inl ⟨_, rfl, Reads.of_fetches contrasts hi hn hf _ _ _⟩
  | halted hf =>
    obtain ⟨-, items', hj, hn', hlt, hts⟩ := Reads.of_halted contrasts hi hn hf
    exact .inr ⟨_, _, rfl, _, hlt, rfl, items', hj, hn', rfl, hts⟩

/-- The current token does not contrast with itself: the lexer moves off it, or stays as it was. -/
private theorem Faces.filter (contrasts : Judge.Contrasts f) (h : Faces patience s n ts l) :
    (∃ l', l.filter patience (some f) = (.ok (), l') ∧
      (l'.current = ts.headD (.eof s) ∧ ∃ m ≤ n, Reads patience s f m ts.tail l') ∧
      ∃ drawn, (∀ e ∈ drawn, e.isDraw = true) ∧ l'.events =
        l.events ++ .filterSet (some f) :: .judged f l.current (.ok false) :: (drawn ++ [.discarded l.current])) ∨
    ∃ e l', l.filter patience (some f) = (.error e, l') ∧ ∃ m < n, Faces patience s m ts l' := by
  obtain ⟨hend, hx, hs, items, hi, hn, rfl, rfl⟩ := h
  let asked := (l.refiltered (some f)).note (.judged f l.current (.ok false))
  have hjudge : (l.refiltered (some f)).judge (some l.view) l.current = (.ok false, asked) := by
    rw [Intake.judge_of_contrasts contrasts (l.refiltered_filter (some f)) l.current]
    rw [show (l.view.current.group != l.current.group) = false from bne_self_eq_false _]
  have hahead : asked.Ahead s f items := by
    refine ⟨hs, rfl, fun he => ?_, fun _ => hi⟩
    exact absurd (hx.symm.trans he) Bool.false_ne_true
  have hf := l.filter_refilters patience (some f)
  rcases hr : l.filter patience (some f) with ⟨r, l'⟩
  rw [hr] at hf
  cases hf with
  | atEnd he => exact absurd (hend.symm.trans he) Bool.false_ne_true
  | failed _ hj => cases hjudge.symm.trans hj
  | kept _ hj => cases hjudge.symm.trans hj
  | replaced _ hj hf =>
    obtain ⟨-, rfl⟩ := Prod.mk.inj (hjudge.symm.trans hj)
    obtain ⟨drawn, hdrawn, hrecord⟩ := hf.record_eq
    refine .inl ⟨_, rfl, Reads.of_fetches contrasts hahead hn hf _ _ _, drawn.reverse, ?_, ?_⟩
    · exact fun e he => hdrawn e (List.mem_reverse.1 he)
    unfold events Intake.events
    rw [Intake.note_record, hrecord]
    simp [asked, refiltered, Intake.install]
  | halted _ hj hf =>
    obtain ⟨-, rfl⟩ := Prod.mk.inj (hjudge.symm.trans hj)
    obtain ⟨hx', items', hj, hn', hlt, hts⟩ := Reads.of_halted contrasts hahead hn hf
    exact .inr ⟨_, _, rfl, _, hlt, hend, hx', hj.source_eq, items', hj.holds hx', hn', rfl, hts⟩

private theorem getD_headD_tail {α : Type} (xs : List α) (d : α) (i : Nat) :
    (xs.headD d :: xs.tail).getD i d = xs.getD i d := by
  cases xs <;> cases i <;> rfl

/-- What is read behind the current token are the tokens that were to be read, and then the end for ever. -/
private theorem Reads.run (contrasts : Judge.Contrasts f) {tries : Nat} (hn : n ≤ tries)
    (h : Reads patience s f n ts l) (k : Nat) :
    (l.insistAll patience tries (List.replicate k .advance)).1 =
      (List.range k).map fun i => .ok (.token (some ((l.current :: ts).getD i (.eof s)))) := by
  induction k generalizing l n ts with
  | zero => rfl
  | succ k ih =>
    -- The current token stays until an attempt succeeds, and every attempt that fails uses up one failure.
    let P (n : Nat) (l' : Lexer φ) : Prop := n ≤ tries ∧ l'.current = l.current ∧ Reads patience s f n ts l'
    let Q (a : Answer) (l' : Lexer φ) : Prop := a = .token (some l.current) ∧ l'.current = ts.headD (.eof s) ∧
      ∃ m ≤ tries, Reads patience s f m ts.tail l'
    have hstep : ∀ {n : Nat} {l' : Lexer φ}, P n l' →
        (∃ a l'', l'.call patience .advance = (.ok a, l'') ∧ Q a l'') ∨
          ∃ e l'', l'.call patience .advance = (.error e, l'') ∧ ∃ m < n, P m l'' := by
      rintro n l' ⟨hn, hc, hl'⟩
      rcases hl'.advance contrasts with ⟨l'', ha, hcurrent, m, hm, hl''⟩ | ⟨e, l'', ha, m, hm, hcurrent, hl''⟩
      · refine .inl ⟨.token (some l'.current), l'', ?_, congrArg (Answer.token <| some ·) hc, hcurrent, m, ?_, hl''⟩
        · simp only [call, ha]
          rfl
        · exact Nat.le_trans hm hn
      · refine .inr ⟨e, l'', ?_, m, hm, by omega, hcurrent.trans hc, hl''⟩
        simp only [call, ha]
        rfl
    obtain ⟨_, l', hi, rfl, hcurrent, m, hm, hl'⟩ := insist_ok (P := P) (Q := Q) hstep ⟨hn, rfl, h⟩ hn
    have hrest := ih hm hl'
    simp only [hcurrent, getD_headD_tail] at hrest
    rw [List.replicate_succ, List.range_succ_eq_map, insistAll, hi]
    simp only [hrest, List.map_cons, List.map_map]
    rfl

/-- The filter is installed once it gets a token, or finds the end; then the tokens behind are read. -/
private theorem Faces.run (contrasts : Judge.Contrasts f) {tries : Nat} (hn : n ≤ tries) (h : Faces patience s n ts l)
    (k : Nat) :
    (l.insistAll patience tries (.filter (some f) :: List.replicate k .advance)).1 =
      .ok .done :: (List.range k).map fun i => .ok (.token (some (ts.getD i (.eof s)))) := by
  let P (n : Nat) (l' : Lexer φ) : Prop := n ≤ tries ∧ Faces patience s n ts l'
  let Q (a : Answer) (l' : Lexer φ) : Prop := a = .done ∧ l'.current = ts.headD (.eof s) ∧
    ∃ m ≤ tries, Reads patience s f m ts.tail l'
  have hstep : ∀ {n : Nat} {l' : Lexer φ}, P n l' →
      (∃ a l'', l'.call patience (.filter (some f)) = (.ok a, l'') ∧ Q a l'') ∨
        ∃ e l'', l'.call patience (.filter (some f)) = (.error e, l'') ∧ ∃ m < n, P m l'' := by
    rintro n l' ⟨hn, hl'⟩
    rcases hl'.filter contrasts with ⟨l'', hf, ⟨hcurrent, m, hm, hl''⟩, -⟩ | ⟨e, l'', hf, m, hm, hl''⟩
    · refine .inl ⟨.done, l'', ?_, rfl, hcurrent, m, Nat.le_trans hm hn, hl''⟩
      simp only [call, hf]
      rfl
    · refine .inr ⟨e, l'', ?_, m, hm, by omega, hl''⟩
      simp only [call, hf]
      rfl
  obtain ⟨_, l', hi, rfl, hcurrent, m, hm, hl'⟩ := insist_ok (P := P) (Q := Q) hstep ⟨hn, h⟩ hn
  have hrest := hl'.run contrasts hm k
  simp only [hcurrent, getD_headD_tail] at hrest
  rw [insistAll, hi]
  exact congrArg _ hrest

/-- Behind a filter that keeps what contrasts with the current token, the first tokens of the runs of one group are
read, without the run that the current token is part of, and then the end. The current token is asked about first and
given up. Items that fail do not matter, as long as each call that fails is made again. The lexer may have come from
anywhere, and the items still to come may be any, as others may have pulled from the same feed. -/
theorem unlike_current_gives_firsts {input : String} {feed : Feed} {p : Option φ} {handler : Handler φ} {l₀ : Lexer φ}
    (created : (create patience { source := ⟨input⟩, feed, common := p } handler).1 = .ok l₀) (before : List (Call φ))
    {stream : Feed} (holds : stream.Holds items) (patient : items.length < patience) (contrasts : Judge.Contrasts f) :
    let reached := (l₀.run patience before).2
    let l : Lexer φ := { reached with intake := { reached.intake with feed := stream } }
    let firsts := Token.firstsBehind l.current (Pull.tokens ⟨input⟩ items)
    let calls (n : Nat) : List (Call φ) := .filter (some f) :: List.replicate n .advance
    let answers (n : Nat) : List (Except Halt Answer) :=
      .ok .done :: (List.range n).map fun k => .ok (.token (some (firsts.getD k (.eof ⟨input⟩))))
    l.atEnd = false →
      (∀ tries n, (Pull.failures ⟨input⟩ items).length ≤ tries →
        (l.insistAll patience tries (calls n)).1 = answers n) ∧
      (Pull.failures ⟨input⟩ items = [] →
        (∀ n, (l.run patience (calls n)).1 = answers n) ∧
          ∃ drawn l', l.filter patience (some f) = (.ok (), l') ∧ l'.current = firsts.headD (.eof ⟨input⟩) ∧
            (∀ e ∈ drawn, e.isDraw = true) ∧ l'.events =
              l.events ++ .filterSet (some f) :: .judged f l.current (.ok false) ::
                (drawn ++ [.discarded l.current])) ∧
      Pull.tokens ⟨input⟩ (items.filter fun a => (a.read ⟨input⟩).isOk) = Pull.tokens ⟨input⟩ items ∧
      firsts.IsChain (fun t u => t.group ≠ u.group) ∧ ∀ t ∈ firsts.head?, t.group ≠ l.current.group := by
  intro reached l firsts calls answers hend
  have hg : Grounded ⟨input⟩ feed.outcome reached :=
    Grounded.stable.of_run (fun _ _ _ _ => trivial) (Grounded.of_create rfl rfl created)
  have hx : l.intake.exhausted = false := by
    rw [← Bool.not_eq_true]
    intro hx
    have hc : l.current = .eof ⟨input⟩ := hg.current_of_exhausted hx
    rw [atEnd, hc, Token.isEof_eof] at hend
    cases hend
  have hl : Faces patience ⟨input⟩ (Pull.failures ⟨input⟩ items).length firsts l :=
    ⟨hend, hx, hg.source_eq, items, holds, patient, rfl, rfl⟩
  refine ⟨fun tries n hn => hl.run contrasts hn n, fun hfailures => ⟨fun n => ?_, ?_⟩, Pull.tokens_filter items,
    Token.isChain_firstsBehind _ _, Token.head?_firstsBehind⟩
  · rw [← insistAll_zero]
    exact hl.run contrasts (by rw [hfailures]; exact Nat.le_refl 0) n
  · rw [hfailures] at hl
    rcases hl.filter contrasts with ⟨l', hf, ⟨hcurrent, -⟩, drawn, hdrawn, hevents⟩ | ⟨-, -, -, m, hm, -⟩
    · exact ⟨drawn, l', hf, hcurrent, hdrawn, hevents⟩
    · exact absurd hm (Nat.not_lt_zero m)

/-- The run of the current token goes on, one item fails inside another run and one is no token: two blanks in a row are
read as one, and the filter is installed at the second attempt. -/
theorem unlike_current_gives_firsts_of_words :
    let word (value : String) (index : Nat) : Pull := .item (.token ⟨"word", value, index, none⟩)
    let blank (index : Nat) : Pull := .item (.token ⟨"blank", " ", index, none⟩)
    let items : List Pull :=
      [word "cd" 2, .fail (.raised "lost"), blank 4, .item (.foreign "int"), blank 5, word "ef" 6]
    let feed := Feed.ofList (word "ab" 0 :: items)
    let filter := Filter.ofKind "unlike_current" .unlikeCurrent
    let s : Source := ⟨"abcd  ef"⟩
    ∃ l : Lexer Filter, (create 7 { source := s, feed } .default).1 = .ok l ∧ l.atEnd = false ∧
      Judge.Contrasts filter ∧ l.intake.feed.Holds items ∧
      (l.insistAll 7 2 [.filter (some filter), .advance, .advance, .advance]).1 =
        [.ok .done, .ok (.token (some ⟨"blank", " ", 4, some s⟩)), .ok (.token (some ⟨"word", "ef", 6, some s⟩)),
          .ok (.token (some (.eof s)))] := by
  intro word blank items feed filter s
  have holds : Feed.Holds ⟨feed.outcome, 1⟩ items := (Feed.holds_ofList (word "ab" 0 :: items)).next_snd
  have contrasts : Judge.Contrasts filter := Filter.contrasts rfl
  refine ⟨_, rfl, rfl, contrasts, holds, ?_⟩
  obtain ⟨hanswers, -⟩ := @unlike_current_gives_firsts Filter _ filter items 7 "abcd  ef" feed none .default _ rfl []
    _ holds (by decide) contrasts rfl
  exact hanswers 2 3 (by decide)

end Lexer

end Lookahead
