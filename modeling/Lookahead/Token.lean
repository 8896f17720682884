import Lookahead.Text.Quoted

/-!
# Tokens

A token is a slice of a text with a group: what was read, as what, and where it starts. It may know the text it was
read from. Two tokens are the same when group, value and index agree; the source is not compared.
-/

namespace Lookahead

/-- A text that tokens are read from. -/
structure Source where
  input : String
  deriving DecidableEq, Repr

namespace Source

/-- The number of characters. -/
def size (s : Source) : Nat := s.input.length

/-- A short description that tells the size only. -/
def describe (s : Source) : String := "Source(<" ++ toString s.size ++ " chars>)"

end Source

/-- A piece of text with a group and the position of its first character. -/
structure Token where
  group : String
  value : String
  index : Nat
  source : Option Source := none
  deriving DecidableEq, Repr

namespace Token

/-- The group of the token that stands for the end of a text. -/
def eofGroup : String := "eof"

/-- The token at the end of a text, just past the last character. -/
def eof (s : Source) : Token := ⟨eofGroup, "", s.size, some s⟩

/-- The token claims the end of the text, whatever its value and index. -/
def isEof (t : Token) : Bool := t.group == eofGroup

/-- The position just past the token. -/
def finish (t : Token) : Nat := t.index + t.value.length

/-- The token has the group and, if a value is asked for, the value. -/
def fits (t : Token) (group : String) (value : Option String := none) : Bool :=
  t.group == group && value.all (t.value == ·)

/-- Equal up to the source. -/
def Same (t u : Token) : Prop := t.group = u.group ∧ t.value = u.value ∧ t.index = u.index

instance (t u : Token) : Decidable (Same t u) :=
  inferInstanceAs (Decidable (t.group = u.group ∧ t.value = u.value ∧ t.index = u.index))

/-- The token with a source: its own if it has one, else the given one, if any. -/
def attach (t : Token) (s : Option Source) : Token := { t with source := t.source.or s }

/-- Group and value between quotes, and the index; `shows` tells which characters show. -/
def describeBy (shows : Char → Bool) (t : Token) : String :=
  "Token(group=" ++ Text.quoteBy shows t.group ++ ", value=" ++ Text.quoteBy shows t.value ++ ", index=" ++
    toString t.index ++ ")"

/-- Group and value between quotes, and the index. -/
def describe (t : Token) : String := t.describeBy Text.isPrintable

@[simp] theorem isEof_eof (s : Source) : (eof s).isEof = true := by simp [eof, isEof]

theorem Same.refl (t : Token) : Same t t := ⟨rfl, rfl, rfl⟩

theorem Same.symm {t u : Token} (h : Same t u) : Same u t := ⟨h.1.symm, h.2.1.symm, h.2.2.symm⟩

theorem Same.trans {t u v : Token} (h : Same t u) (h' : Same u v) : Same t v :=
  ⟨h.1.trans h'.1, h.2.1.trans h'.2.1, h.2.2.trans h'.2.2⟩

theorem same_attach (t : Token) (s : Option Source) : Same (t.attach s) t := Same.refl t

end Token

end Lookahead
