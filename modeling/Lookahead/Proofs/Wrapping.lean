import Lookahead.Proofs.Groups
import Lookahead.Proofs.Nesting
import Lookahead.Proofs.Renumbering
import Lookahead.Proofs.Scanning

/-!
# Wrapping

A pattern between parentheses, in which no reference is by number, is the pattern with another group before all others
(`compile_bracketed`); it matches at the same places, and what it matches knows one more group (`scan_under`).
-/

namespace Lookahead

/-- What an expression refers back to. -/
def Regex.targets {γ ρ : Type} : Regex γ ρ → List ρ
  | seq a b => a.targets ++ b.targets
  | alt a b => a.targets ++ b.targets
  | group _ a => a.targets
  | look _ a => a.targets
  | back r _ => [r]
  | rep a _ _ _ => a.targets
  | _ => []

/-- The match inside a group without a name. -/
def Match.under (m : Match) : Match :=
  { m with names := none :: m.names, closed := (0, m.span) :: m.closed.map fun c => (c.1 + 1, c.2) }

namespace Pattern

/-- The numbering inside a group without a name. -/
def Numbering.under (n : Numbering) : Numbering := ⟨none :: n.names, n.inside.map (· + 1) ++ [0]⟩

namespace Numbering

variable {n n' : Numbering}

theorem enter_under {name : Option String} (h : n.enter name = .ok n') : n.under.enter name = .ok n'.under := by
  unfold enter at h ⊢
  split at h
  · cases h
  next hnew =>
    cases h
    rw [if_neg]
    · simp [under]
    · rintro ⟨hsome, hmem⟩
      refine hnew ⟨hsome, ?_⟩
      rcases List.mem_cons.1 hmem with rfl | hmem
      · cases hsome
      · exact hmem

theorem leave_under (h : n.inside ≠ []) : n.under.leave = n.leave.under := by
  obtain ⟨names, inside⟩ := n
  cases inside with
  | nil => exact absurd rfl h
  | cons k inside => rfl

theorem resolve_under {name : String} {k : Nat} (h : n.resolve (.name name) = .ok k) :
    n.under.resolve (.name name) = .ok (k + 1) := by
  have hfind : n.under.names.idxOf? (some name) = (n.names.idxOf? (some name)).map (· + 1) := List.idxOf?_cons
  unfold resolve at h ⊢
  dsimp only at h ⊢
  rw [hfind]
  cases hk : n.names.idxOf? (some name) with
  | none =>
    rw [hk] at h
    cases h
  | some j =>
    rw [hk] at h
    dsimp only [Option.map_some] at h ⊢
    split at h
    · cases h
    next hj =>
      cases h
      rw [if_neg]
      simpa [under] using hj

end Numbering

/-- Inside a group without a name, all groups have the next number. -/
theorem Numbers.under {n n' : Numbering} {node : Node} {r : Regex Nat Nat} (h : Numbers n node r n')
    (named : ∀ k, Reference.number k ∉ node.targets) : Numbers n.under node (r.renumber (· + 1)) n'.under := by
  induction h with
  | empty n => exact .empty n.under
  | one set n => exact .one set n.under
  | anchor a n => exact .anchor a n.under
  | seq _ _ ih ih' =>
    exact .seq (ih fun k hk => named k (List.mem_append_left _ hk)) (ih' fun k hk => named k (List.mem_append_right _ hk))
  | alt _ _ ih ih' =>
    exact .alt (ih fun k hk => named k (List.mem_append_left _ hk)) (ih' fun k hk => named k (List.mem_append_right _ hk))
  | @group name a a' n n' n'' he h ih =>
    have hinside : n''.inside ≠ [] := by
      rw [h.opens.inside_eq, Numbering.enter_eq_ok he]
      exact List.cons_ne_nil _ _
    rw [← Numbering.leave_under hinside]
    exact .group (Numbering.enter_under he) (ih named)
  | look positive _ ih => exact .look positive (ih named)
  | @back target k ignoreCase n h =>
    cases target with
    | name name => exact .back ignoreCase (Numbering.resolve_under h)
    | number k => exact absurd (List.mem_singleton_self _) (named k)
  | rep min max greedy _ ih => exact .rep min max greedy (ih named)

/-- The pattern inside a group without a name, under another text. -/
def under (p : Pattern) (text : String) : Pattern :=
  ⟨text, .seq (.group 0 (p.regex.renumber (· + 1))) .empty, none :: p.names⟩

/-- The pattern inside a group without a name matches where the pattern does. -/
theorem matchAt_under (p : Pattern) (text : String) (input : Array Char) (fresh : Bool) (pos : Nat) :
    (p.under text).matchAt input fresh pos = (p.matchAt input fresh pos).map Match.under := by
  unfold matchAt
  -- What is accepted knows one more group, which lies where the match does.
  have h := Regex.run_renumber (f := (· + 1)) (fun h => Nat.succ.inj h) input p.regex
    (fun u => { u.renumber (· + 1) with closed := (0, ⟨pos, u.pos⟩) :: (u.renumber (· + 1)).closed })
    (fun u => if fresh || u.pos != pos then some u else none)
    (fun u => if fresh || u.pos != pos then some { u with closed := (0, ⟨pos, u.pos⟩) :: u.closed } else none)
    (fun t => by
      change (if (fresh || t.pos != pos) = true then _ else _) = _
      split <;> rfl) ⟨pos, []⟩
  change Option.map _ (Regex.run input (p.regex.renumber (· + 1)) _ _) = _
  refine (congrArg (Option.map _) h).trans ?_
  rw [Option.map_map, Option.map_map]
  rfl

theorem scan_under (p : Pattern) (text input : String) :
    (p.under text).scan input = (p.scan input).map Match.under :=
  scan_eq_map (fun _ => rfl) fun fresh pos => matchAt_under p text _ fresh pos

/-! ### Compiling -/

theorem compile_eq_ok {text : String} {o : Options} {p : Pattern} :
    compile text o = .ok p ↔ ∃ ps node r n, Piece.ofText o text.toList = .ok ps ∧ Node.ofPieces ps = .ok node ∧
      Numbers {} node r n ∧ p = ⟨text, r, n.names⟩ := by
  constructor
  · intro h
    obtain ⟨ps, hps, h⟩ := bind_eq_ok h
    obtain ⟨node, hnode, h⟩ := bind_eq_ok h
    obtain ⟨⟨r, n⟩, hn, h⟩ := bind_eq_ok h
    cases h
    exact ⟨ps, node, r, n, hps, hnode, .of_number hn, rfl⟩
  · rintro ⟨ps, node, r, n, hps, hnode, hn, rfl⟩
    simp only [compile, ofNode, hps, hnode, hn.number_eq, bind, Except.bind]

/-- A pattern between parentheses is the pattern inside a group without a name. -/
theorem compile_bracketed {text text' : String} {o : Options} {p : Pattern} {ps : List Piece} {node : Node}
    (hps : Piece.ofText o text.toList = .ok ps) (hnode : Node.ofPieces ps = .ok node)
    (named : ∀ k, Reference.number k ∉ node.targets) (h : compile text o = .ok p)
    (hps' : Piece.ofText o text'.toList = .ok (bracketed (.capture none) ps)) :
    compile text' o = .ok (p.under text') := by
  obtain ⟨ps₁, node₁, r, n, hps₁, hnode₁, hn, rfl⟩ := compile_eq_ok.1 h
  cases hps₁.symm.trans hps
  cases hnode₁.symm.trans hnode
  have hgroup : Numbers {} (.group none node) (.group 0 (r.renumber (· + 1))) n.under.leave :=
    .group (show Numbering.enter {} none = .ok (Numbering.under {}) from rfl) (hn.under named)
  exact compile_eq_ok.2 ⟨_, _, _, _, hps', ofPieces_bracketed hnode _, .seq hgroup (.empty _), rfl⟩

end Pattern

end Lookahead
