import Lookahead.Pattern.Basic

/-!
# Nesting

Pieces that make up a tree by themselves make up the same tree between parentheses (`foldlM_bracketed`), and named
groups with bars between them make up the alternation of these groups (`ofPieces_joined`).
-/

namespace Lookahead.Pattern

/-- What is below the frames that some pieces were read into does not matter. -/
theorem Stack.push_append {s s' : Stack} {p : Piece} (h : s.push p = .ok s') (more : List (Bracket × Frame)) :
    Stack.push ⟨s.top, s.below ++ more⟩ p = .ok ⟨s'.top, s'.below ++ more⟩ := by
  cases p with
  | closing =>
    simp only [Stack.push] at h ⊢
    cases hs : s.below with
    | nil =>
      rw [hs] at h
      cases h
    | cons b below =>
      rw [hs] at h
      cases h
      rfl
  | times c =>
    simp only [Stack.push] at h ⊢
    cases ht : s.top.times c with
    | error f =>
      rw [ht] at h
      cases h
    | ok f =>
      rw [ht] at h
      cases h
      rfl
  | _ =>
    cases h
    rfl

theorem Stack.foldlM_append {s s' : Stack} {ps : List Piece} (h : ps.foldlM Stack.push s = .ok s')
    (more : List (Bracket × Frame)) :
    ps.foldlM Stack.push ⟨s.top, s.below ++ more⟩ = .ok ⟨s'.top, s'.below ++ more⟩ := by
  induction ps generalizing s with
  | nil =>
    cases h
    rfl
  | cons p ps ih =>
    rw [List.foldlM_cons] at h ⊢
    cases hp : s.push p with
    | error f =>
      rw [hp] at h
      cases h
    | ok t =>
      rw [hp] at h
      rw [Stack.push_append hp more]
      exact ih h

/-- Pieces that make up a tree leave no parenthesis open. -/
theorem Node.foldlM_of_ofPieces {ps : List Piece} {node : Node} (h : Node.ofPieces ps = .ok node) :
    ∃ f : Frame, ps.foldlM Stack.push {} = .ok ⟨f, []⟩ ∧ f.node = node := by
  unfold Node.ofPieces at h
  cases hs : ps.foldlM Stack.push {} with
  | error f =>
    rw [hs] at h
    cases h
  | ok s =>
    rw [hs] at h
    obtain ⟨f, below⟩ := s
    cases below with
    | nil => exact ⟨f, rfl, Except.ok.inj h⟩
    | cons b below => cases h

theorem Node.ofPieces_of_foldlM {ps : List Piece} {f : Frame} (h : ps.foldlM Stack.push {} = .ok ⟨f, []⟩) :
    Node.ofPieces ps = .ok f.node := by
  unfold Node.ofPieces
  rw [h]
  rfl

/-- Pieces between parentheses. -/
def bracketed (b : Bracket) (ps : List Piece) : List Piece := .opening b :: ps ++ [.closing]

/-- Pieces that make up a tree make it up between parentheses, too. -/
theorem foldlM_bracketed {ps : List Piece} {node : Node} (h : Node.ofPieces ps = .ok node) (b : Bracket) (s : Stack) :
    (bracketed b ps).foldlM Stack.push s = .ok ⟨s.top.push (b.close node), s.below⟩ := by
  obtain ⟨f, hf, rfl⟩ := Node.foldlM_of_ofPieces h
  have hinner : ps.foldlM Stack.push ⟨{}, (b, s.top) :: s.below⟩ = .ok ⟨f, (b, s.top) :: s.below⟩ :=
    Stack.foldlM_append hf ((b, s.top) :: s.below)
  unfold bracketed
  rw [List.cons_append, List.foldlM_cons]
  change (ps ++ [Piece.closing]).foldlM Stack.push ⟨{}, (b, s.top) :: s.below⟩ = _
  rw [List.foldlM_append, hinner]
  rfl

theorem ofPieces_bracketed {ps : List Piece} {node : Node} (h : Node.ofPieces ps = .ok node) (b : Bracket) :
    Node.ofPieces (bracketed b ps) = .ok (.seq (b.close node) .empty) :=
  Node.ofPieces_of_foldlM (foldlM_bracketed h b {})

/-! ### Named groups with bars between them -/

/-- A named group around an expression that can stand by itself. -/
structure Choice where
  name : String
  pieces : List Piece
  node : Node
  reads : Node.ofPieces pieces = .ok node

namespace Choice

/-- The group as it is written. -/
def written (a : Choice) : List Piece := bracketed (.capture (some a.name)) a.pieces

/-- The row that holds the group only. -/
def row (a : Choice) : Node := .seq (.group (some a.name) a.node) .empty

/-- The groups with bars between them. -/
def joined : List Choice → List Piece
  | [] => []
  | [a] => a.written
  | a :: as => a.written ++ .bar :: joined as

/-- One of the groups, the first one that does. -/
def union : List Choice → Node
  | [] => .empty
  | [a] => a.row
  | a :: as => .alt a.row (union as)

theorem joined_eq_cons {as : List Choice} (h : as ≠ []) : ∃ b ps, joined as = .opening b :: ps := by
  cases as with
  | nil => exact absurd rfl h
  | cons a as =>
    cases as with
    | nil => exact ⟨_, _, rfl⟩
    | cons b as => exact ⟨_, _, rfl⟩

theorem foldlM_written (a : Choice) (s : Stack) :
    a.written.foldlM Stack.push s = .ok ⟨s.top.push (.group (some a.name) a.node), s.below⟩ :=
  foldlM_bracketed a.reads _ s

theorem foldlM_joined (as : List Choice) (finished : List Node) (below : List (Bracket × Frame)) :
    ∃ f : Frame, (joined as).foldlM Stack.push ⟨⟨finished, []⟩, below⟩ = .ok ⟨f, below⟩ ∧
      f.node = finished.foldl (fun tail n => .alt n tail) (union as) := by
  induction as generalizing finished with
  | nil => exact ⟨_, rfl, rfl⟩
  | cons a as ih =>
    cases as with
    | nil => exact ⟨_, a.foldlM_written _, rfl⟩
    | cons b as =>
      -- The first group is finished at the bar.
      obtain ⟨f, hf, hnode⟩ := ih (a.row :: finished)
      refine ⟨f, ?_, hnode⟩
      unfold joined
      rw [List.foldlM_append, a.foldlM_written]
      exact hf

/-- Named groups with bars between them make up the alternation of these groups. -/
theorem ofPieces_joined (as : List Choice) : Node.ofPieces (joined as) = .ok (union as) := by
  obtain ⟨f, hf, hnode⟩ := foldlM_joined as [] []
  rw [Node.ofPieces_of_foldlM hf, hnode]
  rfl

end Choice

end Lookahead.Pattern
