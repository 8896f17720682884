import Lookahead.Pattern.Basic
import Lookahead.Proofs.Ways

/-!
# Numbers of groups

`Numbers n node r n'` says what numbering a tree does, one constructor for each kind of tree. The groups of a tree get
consecutive numbers in order of opening, and their names come behind those that were there (`Numbers.opens`).
-/

namespace Lookahead.Pattern

/-- The tree gets numbers for groups, from one numbering to another. -/
inductive Numbers : Numbering → Node → Regex Nat Nat → Numbering → Prop
  | empty (n : Numbering) : Numbers n .empty .empty n
  | one (set : CharSet) (n : Numbering) : Numbers n (.one set) (.one set) n
  | anchor (a : Anchor) (n : Numbering) : Numbers n (.anchor a) (.anchor a) n
  | seq {a b : Node} {a' b' : Regex Nat Nat} {n n' n'' : Numbering} (h : Numbers n a a' n') (h' : Numbers n' b b' n'') :
      Numbers n (.seq a b) (.seq a' b') n''
  | alt {a b : Node} {a' b' : Regex Nat Nat} {n n' n'' : Numbering} (h : Numbers n a a' n') (h' : Numbers n' b b' n'') :
      Numbers n (.alt a b) (.alt a' b') n''
  | group {name : Option String} {a : Node} {a' : Regex Nat Nat} {n n' n'' : Numbering} (he : n.enter name = .ok n')
      (h : Numbers n' a a' n'') : Numbers n (.group name a) (.group n.names.length a') n''.leave
  | look (positive : Bool) {a : Node} {a' : Regex Nat Nat} {n n' : Numbering} (h : Numbers n a a' n') :
      Numbers n (.look positive a) (.look positive a') n'
  | back {target : Reference} {k : Nat} (ignoreCase : Bool) {n : Numbering} (h : n.resolve target = .ok k) :
      Numbers n (.back target ignoreCase) (.back k ignoreCase) n
  | rep (min : Nat) (max : Option Nat) (greedy : Bool) {a : Node} {a' : Regex Nat Nat} {n n' : Numbering}
      (h : Numbers n a a' n') : Numbers n (.rep a min max greedy) (.rep a' min max greedy) n'

theorem bind_eq_ok {ε α β : Type} {x : Except ε α} {f : α → Except ε β} {b : β} (h : x >>= f = .ok b) :
    ∃ a, x = .ok a ∧ f a = .ok b := by
  cases x with
  | error e => cases h
  | ok a => exact ⟨a, rfl, h⟩

namespace Numbers

variable {n n' : Numbering} {node : Node} {r : Regex Nat Nat}

theorem of_number (h : Node.number node n = .ok (r, n')) : Numbers n node r n' := by
  induction node generalizing n n' r with
  | empty =>
    cases h
    exact .empty n
  | one set =>
    cases h
    exact .one set n
  | anchor a =>
    cases h
    exact .anchor a n
  | seq a b iha ihb =>
    obtain ⟨⟨a', n₁⟩, ha, h⟩ := bind_eq_ok h
    obtain ⟨⟨b', n₂⟩, hb, h⟩ := bind_eq_ok h
    cases h
    exact .seq (iha ha) (ihb hb)
  | alt a b iha ihb =>
    obtain ⟨⟨a', n₁⟩, ha, h⟩ := bind_eq_ok h
    obtain ⟨⟨b', n₂⟩, hb, h⟩ := bind_eq_ok h
    cases h
    exact .alt (iha ha) (ihb hb)
  | group name a ih =>
    obtain ⟨n₁, he, h⟩ := bind_eq_ok h
    obtain ⟨⟨a', n₂⟩, ha, h⟩ := bind_eq_ok h
    cases h
    exact .group he (ih ha)
  | look positive a ih =>
    obtain ⟨⟨a', n₁⟩, ha, h⟩ := bind_eq_ok h
    cases h
    exact .look positive (ih ha)
  | back target ignoreCase =>
    obtain ⟨k, hk, h⟩ := bind_eq_ok h
    cases h
    exact .back ignoreCase hk
  | rep a min max greedy ih =>
    obtain ⟨⟨a', n₁⟩, ha, h⟩ := bind_eq_ok h
    cases h
    exact .rep min max greedy (ih ha)

theorem number_eq (h : Numbers n node r n') : Node.number node n = .ok (r, n') := by
  induction h with
  | empty => rfl
  | one => rfl
  | anchor => rfl
  | seq _ _ ih ih' => simp only [Node.number, ih, ih', bind, Except.bind]
  | alt _ _ ih ih' => simp only [Node.number, ih, ih', bind, Except.bind]
  | group he _ ih => simp only [Node.number, he, ih, bind, Except.bind]
  | look _ _ ih => simp only [Node.number, ih, bind, Except.bind]
  | back _ h => simp only [Node.number, h, bind, Except.bind]
  | rep _ _ _ _ ih => simp only [Node.number, ih, bind, Except.bind]

end Numbers

theorem Numbering.enter_eq_ok {n n' : Numbering} {name : Option String} (h : n.enter name = .ok n') :
    n' = ⟨n.names ++ [name], n.names.length :: n.inside⟩ := by
  unfold enter at h
  split at h
  · cases h
  · exact (Except.ok.inj h).symm

/-- From one numbering to another, groups with the given names were opened and closed, and got the given numbers. -/
structure Numbering.Opens (n : Numbering) (names : List (Option String)) (numbers : List Nat) (n' : Numbering) :
    Prop where
  inside_eq : n'.inside = n.inside
  names_eq : n'.names = n.names ++ names
  numbers_eq : numbers = List.range' n.names.length names.length

namespace Numbering.Opens

variable {n n' n'' : Numbering} {name : Option String} {names names' : List (Option String)} {numbers numbers' : List Nat}

theorem refl (n : Numbering) : n.Opens [] [] n := ⟨rfl, (List.append_nil _).symm, rfl⟩

theorem trans (h : n.Opens names numbers n') (h' : n'.Opens names' numbers' n'') :
    n.Opens (names ++ names') (numbers ++ numbers') n'' where
  inside_eq := h'.inside_eq.trans h.inside_eq
  names_eq := by rw [h'.names_eq, h.names_eq, List.append_assoc]
  numbers_eq := by
    rw [h.numbers_eq, h'.numbers_eq, h.names_eq, List.length_append, List.length_append, List.range'_append_1]

theorem group (he : n.enter name = .ok n') (h : n'.Opens names numbers n'') :
    n.Opens (name :: names) (n.names.length :: numbers) n''.leave := by
  cases enter_eq_ok he
  refine ⟨?_, ?_, ?_⟩
  · change n''.inside.tail = n.inside
    rw [h.inside_eq, List.tail_cons]
  · change n''.names = n.names ++ name :: names
    rw [h.names_eq, List.append_assoc, List.singleton_append]
  · rw [h.numbers_eq, List.length_append, List.length_singleton, List.length_cons, List.range'_succ]

end Numbering.Opens

/-- The groups of a tree get consecutive numbers in order of opening. -/
theorem Numbers.opens {n n' : Numbering} {node : Node} {r : Regex Nat Nat} (h : Numbers n node r n') :
    n.Opens node.groups r.groups n' := by
  induction h with
  | seq _ _ ih ih' => exact ih.trans ih'
  | alt _ _ ih ih' => exact ih.trans ih'
  | group he _ ih => exact ih.group he
  | look _ _ ih => exact ih
  | rep _ _ _ _ ih => exact ih
  | _ => exact .refl _

end Lookahead.Pattern
