import Lookahead.Regex.Basic
import Lookahead.Pattern.Fault

/-!
# Pieces of a pattern

The text of a pattern, cut into its pieces: parentheses, bars, quantifiers, places, single characters and sets, and
references. Each reader takes a nonempty stretch off the front of the text (`Front.shorter`), so cutting ends. What a
piece means among the others is not decided here.
-/

namespace Lookahead.Pattern

/-- The options under which a pattern is read. -/
structure Options where
  ignoreCase : Bool := false
  multiline : Bool := false
  dotAll : Bool := false
  verbose : Bool := false
  ascii : Bool := false
  deriving DecidableEq, Repr

/-- How a pattern refers to a group: by its name or by its number, counted from one. -/
inductive Reference where
  | name (name : String)
  | number (number : Nat)
  deriving DecidableEq, Repr

/-- What a parenthesis opens. -/
inductive Bracket where
  | capture (name : Option String)
  | plain
  | look (positive : Bool)
  deriving DecidableEq, Repr

/-- How often something may occur. -/
structure Count where
  min : Nat
  max : Option Nat
  greedy : Bool
  deriving DecidableEq, Repr

/-- A piece of a pattern. -/
inductive Piece where
  | opening (b : Bracket)
  | closing
  | bar
  | times (c : Count)
  | anchor (a : Anchor)
  | one (set : CharSet)
  | back (target : Reference) (ignoreCase : Bool)
  deriving DecidableEq, Repr

/-- What was read at the front of a text, and the rest, which is shorter than `n`. -/
structure Front (α : Type) (n : Nat) where
  value : α
  rest : List Char
  shorter : rest.length < n

namespace Front

/-- The same rest with another value. -/
def map {α β : Type} {n : Nat} (f : α → β) (r : Front α n) : Front β n := ⟨f r.value, r.rest, r.shorter⟩

/-- What is shorter than `m` is shorter than any `n` from there on. -/
def weaken {α : Type} {m n : Nat} (r : Front α m) (h : m ≤ n) : Front α n :=
  ⟨r.value, r.rest, Nat.lt_of_lt_of_le r.shorter h⟩

theorem tail_shorter {α : Type} {n : Nat} (r : Front α n) {c : Char} {cs : List Char} (h : r.rest = c :: cs) :
    cs.length < n := by
  have hr := r.shorter
  rw [h] at hr
  exact Nat.lt_of_succ_lt hr

end Front

theorem length_dropWhile_le (p : Char → Bool) (cs : List Char) : (cs.dropWhile p).length ≤ cs.length := by
  induction cs with
  | nil => simp
  | cons c cs ih =>
    rw [List.dropWhile_cons]
    split
    · exact Nat.le_succ_of_le ih
    · exact Nat.le_refl _

/-! ### Escapes -/

/-- Control characters that are written as a letter. -/
def control : Char → Option Char
  | 'a' => some '\x07'
  | 'f' => some '\x0c'
  | 'n' => some '\n'
  | 'r' => some '\r'
  | 't' => some '\t'
  | 'v' => some '\x0b'
  | _ => none

/-- Families and complements of families that are written as a letter. -/
def family (o : Options) : Char → Option CharSet.Item
  | 'd' => some (.family .digit o.ascii false)
  | 'D' => some (.family .digit o.ascii true)
  | 's' => some (.family .blank o.ascii false)
  | 'S' => some (.family .blank o.ascii true)
  | 'w' => some (.family .word o.ascii false)
  | 'W' => some (.family .word o.ascii true)
  | _ => none

/-- Places that are written as a letter. -/
def place (o : Options) : Char → Option Anchor
  | 'A' => some .start
  | 'Z' => some .finish
  | 'b' => some (.wordEdge o.ascii false)
  | 'B' => some (.wordEdge o.ascii true)
  | _ => none

/-- One character as a piece. -/
def Piece.char (o : Options) (c : Char) : Piece := .one (.single c o.ignoreCase)

/-- A reference by number has one or two digits. -/
def readNumber (first : Char) (cs : List Char) : Nat × List Char :=
  match cs with
  | c :: rest =>
    if c.isDigit then (10 * (first.toNat - '0'.toNat) + (c.toNat - '0'.toNat), rest)
    else (first.toNat - '0'.toNat, cs)
  | [] => (first.toNat - '0'.toNat, cs)

theorem length_readNumber_le (first : Char) (cs : List Char) : (readNumber first cs).2.length ≤ cs.length := by
  unfold readNumber
  split
  · split <;> simp
  · simp

/-- What a backslash and the character after it stand for, outside a set. -/
def readEscape (o : Options) (c : Char) (cs : List Char) : Except Fault (Front Piece (cs.length + 1)) :=
  let here := fun p : Piece => (⟨p, cs, Nat.lt_succ_self _⟩ : Front Piece (cs.length + 1))
  match place o c, family o c, control c with
  | some a, _, _ => .ok (here (.anchor a))
  | _, some item, _ => .ok (here (.one ⟨[item], false, false⟩))
  | _, _, some d => .ok (here (.char o d))
  | none, none, none =>
    if '1' ≤ c ∧ c ≤ '9' then
      let r := readNumber c cs
      .ok ⟨.back (.number r.1) o.ignoreCase, r.2, Nat.lt_succ_of_le (length_readNumber_le c cs)⟩
    else if c.isAlphanum then .error .badEscape
    else .ok (here (.char o c))

/-! ### Sets -/

/-- A member of a set: a character, which may open a range, or a family. -/
inductive Member where
  | char (c : Char)
  | item (i : CharSet.Item)

/-- The member as an item of its own. -/
def Member.toItem : Member → CharSet.Item
  | char c => .range c c
  | item i => i

/-- What a backslash and the character after it stand for in a set. -/
def memberEscape (o : Options) (c : Char) : Except Fault Member :=
  match family o c, (if c = 'b' then some '\x08' else control c) with
  | some item, _ => .ok (.item item)
  | none, some d => .ok (.char d)
  | none, none => if c.isAlphanum then .error .badEscape else .ok (.char c)

/-- The member at the front of a text. -/
def readMember (o : Options) : (cs : List Char) → Except Fault (Front Member cs.length)
  | [] => .error .unterminatedSet
  | ['\\'] => .error .badEscape
  | '\\' :: c :: rest => (memberEscape o c).map fun m => ⟨m, rest, by simp only [List.length_cons]; omega⟩
  | c :: rest => .ok ⟨.char c, rest, Nat.lt_succ_self _⟩

/-- The range between two members, which have to be characters in order. -/
def range : Member → Member → Except Fault CharSet.Item
  | .char lo, .char hi => if hi < lo then .error .badRange else .ok (.range lo hi)
  | _, _ => .error .badRange

/-- The items up to the bracket that closes the set, which is an ordinary member where `first` holds. A hyphen between
two members makes a range, at the end it stands for itself. -/
def readItems (o : Options) (first : Bool) (cs : List Char) :
    Except Fault (Front (List CharSet.Item) cs.length) :=
  match cs with
  | [] => .error .unterminatedSet
  | c :: tail =>
    if c = ']' && !first then .ok ⟨[], tail, Nat.lt_succ_self _⟩
    else do
      let m ← readMember o (c :: tail)
      match h : m.rest with
      | '-' :: ']' :: rest =>
        .ok ⟨[m.value.toItem, .range '-' '-'], rest, Nat.lt_of_succ_lt (m.tail_shorter h)⟩
      | '-' :: rest => do
        have hr : rest.length < (c :: tail).length := m.tail_shorter h
        let n ← readMember o rest
        let item ← range m.value n.value
        have hn : n.rest.length < (c :: tail).length := Nat.lt_trans n.shorter hr
        let more ← readItems o false n.rest
        .ok ((more.map (item :: ·)).weaken (Nat.le_of_lt hn))
      | _ => do
        let more ← readItems o false m.rest
        .ok ((more.map (m.value.toItem :: ·)).weaken (Nat.le_of_lt m.shorter))
termination_by cs.length
decreasing_by
  · exact hn
  · exact m.shorter

/-- A set, after the bracket that opens it. -/
def readSet (o : Options) (cs : List Char) : Except Fault (Front CharSet (cs.length + 1)) :=
  match cs with
  | '^' :: rest => (readItems o true rest).map fun r =>
    (r.map (CharSet.mk · true o.ignoreCase)).weaken (by simp only [List.length_cons]; omega)
  | cs => (readItems o true cs).map fun r => (r.map (CharSet.mk · false o.ignoreCase)).weaken (by omega)

/-! ### Parentheses -/

/-- An identifier and the mark that ends it. -/
def readName (stop : Char) (cs : List Char) : Except Fault (Front String cs.length) :=
  let name := cs.takeWhile (· != stop)
  match h : cs.dropWhile (· != stop) with
  | [] => .error .badGroupName
  | _ :: rest =>
    if Text.isIdentifier name then
      .ok ⟨String.ofList name, rest, by
        have := length_dropWhile_le (· != stop) cs
        simp only [h, List.length_cons] at this
        omega⟩
    else .error .badGroupName

/-- What stands after a parenthesis that opens. A question mark may be followed by what makes a group, a look ahead or a
reference by name; whatever else it may begin (looks behind, conditions, atomic groups, remarks, options) is refused. -/
def readOpening (o : Options) (cs : List Char) : Except Fault (Front Piece (cs.length + 1)) :=
  match cs with
  | '?' :: ':' :: rest => .ok ⟨.opening .plain, rest, by simp only [List.length_cons]; omega⟩
  | '?' :: '=' :: rest => .ok ⟨.opening (.look true), rest, by simp only [List.length_cons]; omega⟩
  | '?' :: '!' :: rest => .ok ⟨.opening (.look false), rest, by simp only [List.length_cons]; omega⟩
  | '?' :: 'P' :: '<' :: rest => (readName '>' rest).map fun r =>
    (r.map fun name => Piece.opening (.capture (some name))).weaken (by simp only [List.length_cons]; omega)
  | '?' :: 'P' :: '=' :: rest => (readName ')' rest).map fun r =>
    (r.map fun name => Piece.back (.name name) o.ignoreCase).weaken (by simp only [List.length_cons]; omega)
  | '?' :: _ => .error .unknownExtension
  | cs => .ok ⟨.opening (.capture none), cs, Nat.lt_succ_self _⟩

/-! ### Quantifiers -/

/-- The value of a text of decimal digits, if there are any. -/
def digits? (cs : List Char) : Option Nat :=
  if cs.isEmpty then none else some (cs.foldl (fun n c => 10 * n + (c.toNat - '0'.toNat)) 0)

/-- A quantifier before `cs`: a question mark that follows at once makes it modest. -/
def readTimes (min : Nat) (max : Option Nat) (cs : List Char) : Front Piece (cs.length + 1) :=
  match cs with
  | '?' :: rest => ⟨.times ⟨min, max, false⟩, rest, by simp only [List.length_cons]; omega⟩
  | cs => ⟨.times ⟨min, max, true⟩, cs, by omega⟩

/-- The bounds in braces, after the brace that opens: one number, or two numbers either of which may be missing. Empty
braces hold no bounds. -/
def readBounds (cs : List Char) : Option (Front (Nat × Option Nat) cs.length) :=
  let least := digits? (cs.takeWhile Char.isDigit)
  match h : cs.dropWhile Char.isDigit with
  | '}' :: rest => least.map fun n => ⟨(n, some n), rest, by
      have := length_dropWhile_le Char.isDigit cs
      simp only [h, List.length_cons] at this
      omega⟩
  | ',' :: tail =>
    match h' : tail.dropWhile Char.isDigit with
    | '}' :: rest => some ⟨(least.getD 0, digits? (tail.takeWhile Char.isDigit)), rest, by
        have := length_dropWhile_le Char.isDigit cs
        have := length_dropWhile_le Char.isDigit tail
        simp only [h, h', List.length_cons] at *
        omega⟩
    | _ => none
  | _ => none

/-- A quantifier in braces, or else the brace itself. -/
def readBraces (o : Options) (cs : List Char) : Except Fault (Front Piece (cs.length + 1)) :=
  match readBounds cs with
  | none => .ok ⟨.char o '{', cs, by omega⟩
  | some r =>
    if r.value.2.any (· < r.value.1) then .error .minAboveMax
    else .ok ((readTimes r.value.1 r.value.2 r.rest).weaken (Nat.succ_le_succ (Nat.le_of_lt r.shorter)))

/-! ### The whole text -/

/-- Drops a remark up to the end of its line. A backslash takes the next character with it. -/
def dropRemark : List Char → Except Fault (List Char)
  | [] => .ok []
  | ['\\'] => .error .badEscape
  | '\\' :: _ :: rest => dropRemark rest
  | '\n' :: rest => .ok rest
  | _ :: rest => dropRemark rest

theorem length_dropRemark_le {cs rest : List Char} (h : dropRemark cs = .ok rest) : rest.length ≤ cs.length := by
  fun_induction dropRemark cs with
  | case1 => simp_all
  | case2 => simp at h
  | case3 _ _ ih => have := ih h; simp only [List.length_cons]; omega
  | case4 => simp_all
  | case5 _ _ _ _ _ ih => have := ih h; simp only [List.length_cons]; omega

/-- Drops what a verbose pattern may hold between its pieces, if it stands at the front. -/
def skip? (o : Options) (c : Char) (cs : List Char) : Option (Except Fault (Front (Option Piece) (cs.length + 1))) :=
  if !o.verbose then none
  else if Family.asciiBlank c then some (.ok ⟨none, cs, by omega⟩)
  else if c = '#' then
    some (match h : dropRemark cs with
      | .error f => .error f
      | .ok rest => .ok ⟨none, rest, Nat.lt_succ_of_le (length_dropRemark_le h)⟩)
  else none

/-- The piece that begins with a character. -/
def readPiece (o : Options) (c : Char) (cs : List Char) : Except Fault (Front Piece (cs.length + 1)) :=
  let here := fun p : Piece => (.ok ⟨p, cs, by omega⟩ : Except Fault (Front Piece (cs.length + 1)))
  match c with
  | '\\' =>
    match cs with
    | [] => .error .badEscape
    | d :: rest => (readEscape o d rest).map (·.weaken (by simp only [List.length_cons]; omega))
  | '[' => (readSet o cs).map (Front.map .one)
  | '(' => readOpening o cs
  | ')' => here .closing
  | '|' => here .bar
  | '*' => .ok (readTimes 0 none cs)
  | '+' => .ok (readTimes 1 none cs)
  | '?' => .ok (readTimes 0 (some 1) cs)
  | '{' => readBraces o cs
  | '.' => here (.one (if o.dotAll then .any else .anyInLine))
  | '^' => here (.anchor (if o.multiline then .lineStart else .start))
  | '$' => here (.anchor (if o.multiline then .lineFinish else .lastLine))
  | c => here (.char o c)

/-- The pieces of a pattern. -/
def Piece.ofText (o : Options) (cs : List Char) : Except Fault (List Piece) :=
  match cs with
  | [] => .ok []
  | c :: tail => do
    let r ← (skip? o c tail).getD ((readPiece o c tail).map (Front.map some))
    let more ← Piece.ofText o r.rest
    .ok (r.value.toList ++ more)
termination_by cs.length
decreasing_by exact r.shorter

end Lookahead.Pattern
