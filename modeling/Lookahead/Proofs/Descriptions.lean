import Lookahead.Lexer
import Lookahead.Proofs.Wording

/-!
# Descriptions

A quoted text can be read back character by character (`Text.unescape_escapeBy`), and no character is written so that it
begins with the quote that ends the text. So a quoted text ends where it ends, whatever it holds and whatever follows
(`Text.quoteBy_append_injective`), and the description of a token tells its group, its value and its index, also if one
of them looks like the words between them (`Lexer.described_alike_iff`).

Which characters show, and are written as they are, is a matter of a table. Nothing here depends on it: `shows` may be
any, and `Text.isPrintable` is one.
-/

namespace Lookahead

namespace Text

theorem quoteMark_eq (cs : List Char) : quoteMark cs = '\'' ∨ quoteMark cs = '"' := by
  unfold quoteMark
  split
  · exact .inr rfl
  · exact .inl rfl

/-! ### Reading a quoted text -/

/-- The value of a hexadecimal digit. -/
def hexValue (d : Char) : Nat := if d.toNat < 0x3A then d.toNat - 0x30 else d.toNat - 0x57

/-- The number that hexadecimal digits stand for. -/
def ofHex (ds : List Char) : Nat := ds.foldl (fun n d => n * 16 + hexValue d) 0

/-- Reads a character by its code of so many hexadecimal digits, and gives the rest. -/
def unhex (width : Nat) (cs : List Char) : Char × List Char := (Char.ofNat (ofHex (cs.take width)), cs.drop width)

/-- Reads what stands behind a backslash as one character, and gives the rest. -/
def unescapeMarked : List Char → Option (Char × List Char)
  | [] => none
  | 't' :: rest => some ('\t', rest)
  | 'n' :: rest => some ('\n', rest)
  | 'r' :: rest => some ('\r', rest)
  | 'x' :: rest => some (unhex 2 rest)
  | 'u' :: rest => some (unhex 4 rest)
  | 'U' :: rest => some (unhex 8 rest)
  | c :: rest => some (c, rest)

/-- Reads one character of a quoted text, and gives the rest. -/
def unescape : List Char → Option (Char × List Char)
  | [] => none
  | c :: rest => if c = '\\' then unescapeMarked rest else some (c, rest)

private theorem hexValue_hexDigit : ∀ n < 16, hexValue (hexDigit n) = n := by decide

private theorem ofHex_append (ds : List Char) (d : Char) : ofHex (ds ++ [d]) = ofHex ds * 16 + hexValue d := by
  unfold ofHex
  rw [List.foldl_append]
  rfl

theorem ofHex_hex {width n : Nat} (h : n < 16 ^ width) : ofHex (hex width n) = n := by
  induction width generalizing n with
  | zero =>
    obtain rfl : n = 0 := by omega
    rfl
  | succ width ih =>
    have hhigh : n / 16 < 16 ^ width := by
      rw [Nat.pow_succ] at h
      omega
    have hlow : n % 16 < 16 := Nat.mod_lt _ (by decide)
    calc ofHex (hex (width + 1) n) = ofHex (hex width (n / 16)) * 16 + hexValue (hexDigit (n % 16)) := ofHex_append _ _
      _ = n / 16 * 16 + n % 16 := by rw [ih hhigh, hexValue_hexDigit _ hlow]
      _ = n := Nat.div_add_mod' n 16

theorem unhex_hex {width : Nat} {c : Char} (h : c.toNat < 16 ^ width) (rest : List Char) :
    unhex width (hex width c.toNat ++ rest) = (c, rest) := by
  unfold unhex
  rw [List.take_left' (hex_length _ _), List.drop_left' (hex_length _ _), ofHex_hex h, Char.ofNat_toNat]

section Marked

variable {shows : Char → Bool} {q : Char} (hq : q = '\'' ∨ q = '"')
include hq

theorem unescape_mark (rest : List Char) : unescape (q :: rest) = some (q, rest) := by
  rcases hq with rfl | rfl <;> rfl

/-- What is written for a character is read as that character. -/
theorem unescape_escapeBy (c : Char) (rest : List Char) :
    unescape (escapeBy shows q c ++ rest) = some (c, rest) := by
  unfold escapeBy
  split
  case isTrue h =>
    rcases h with rfl | rfl
    · rcases hq with rfl | rfl <;> rfl
    · rfl
  case isFalse h =>
    rw [not_or] at h
    split
    case isTrue ht => rw [ht]; rfl
    split
    case isTrue hn => rw [hn]; rfl
    split
    case isTrue hr => rw [hr]; rfl
    split
    · exact if_neg h.2
    -- The width of the code is the least that is wide enough.
    split
    · exact congrArg some (unhex_hex (by omega : c.toNat < 16 ^ 2) rest)
    split
    · exact congrArg some (unhex_hex (by omega : c.toNat < 16 ^ 4) rest)
    · have hc : c.toNat < 4294967296 := c.val.toNat_lt
      exact congrArg some (unhex_hex (by omega : c.toNat < 16 ^ 8) rest)

theorem mark_ne_escapeBy (c : Char) (rest rest' : List Char) : q :: rest ≠ escapeBy shows q c ++ rest' := by
  intro h
  have hread := congrArg unescape h
  rw [unescape_mark hq, unescape_escapeBy hq] at hread
  obtain ⟨rfl, -⟩ := Prod.mk.inj (Option.some.inj hread)
  -- So the character is the quote itself, and that is written behind a backslash.
  have hmarked : escapeBy shows q q = ['\\', q] := if_pos (.inl rfl)
  rw [hmarked] at h
  have hbackslash : q = '\\' := (List.cons.inj h).1
  rcases hq with rfl | rfl <;> cases hbackslash

theorem flatMap_escapeBy_append_injective {cs ds rest rest' : List Char}
    (h : cs.flatMap (escapeBy shows q) ++ q :: rest = ds.flatMap (escapeBy shows q) ++ q :: rest') :
    cs = ds ∧ rest = rest' := by
  induction cs generalizing ds with
  | nil =>
    cases ds with
    | nil => exact ⟨rfl, (List.cons.inj h).2⟩
    | cons d ds =>
      rw [List.flatMap_cons, List.append_assoc] at h
      exact absurd h (mark_ne_escapeBy hq d _ _)
  | cons c cs ih =>
    cases ds with
    | nil =>
      rw [List.flatMap_cons, List.append_assoc] at h
      exact absurd h.symm (mark_ne_escapeBy hq c _ _)
    | cons d ds =>
      have hread := congrArg unescape h
      rw [List.flatMap_cons, List.flatMap_cons, List.append_assoc, List.append_assoc, unescape_escapeBy hq,
        unescape_escapeBy hq] at hread
      obtain ⟨rfl, htail⟩ := Prod.mk.inj (Option.some.inj hread)
      obtain ⟨rfl, hrest⟩ := ih htail
      exact ⟨rfl, hrest⟩

end Marked

/-- The first quote tells which one ends the text, and so a quoted text can be taken off what follows. -/
theorem quoteBy_append_injective {shows : Char → Bool} {s t rest rest' : String}
    (h : quoteBy shows s ++ rest = quoteBy shows t ++ rest') : s = t ∧ rest = rest' := by
  have hlist : ∀ s rest : String, (quoteBy shows s ++ rest).toList = quoteMark s.toList ::
      (s.toList.flatMap (escapeBy shows (quoteMark s.toList)) ++ quoteMark s.toList :: rest.toList) := by
    intro s rest
    simp [quoteBy]
  have h := congrArg String.toList h
  rw [hlist, hlist] at h
  obtain ⟨hmark, h⟩ := List.cons.inj h
  rw [← hmark] at h
  obtain ⟨hs, hrest⟩ := flatMap_escapeBy_append_injective (quoteMark_eq _) h
  exact ⟨String.toList_inj.1 hs, String.toList_inj.1 hrest⟩

end Text

/-! ### Tokens and lexers -/

namespace Token

variable {shows : Char → Bool} {t u : Token}

theorem describeBy_eq_iff : t.describeBy shows = u.describeBy shows ↔ t.Same u := by
  constructor
  · intro h
    unfold describeBy at h
    simp only [String.append_assoc, String.append_right_inj] at h
    obtain ⟨hgroup, h⟩ := Text.quoteBy_append_injective h
    rw [String.append_right_inj] at h
    obtain ⟨hvalue, h⟩ := Text.quoteBy_append_injective h
    rw [String.append_right_inj, String.append_left_inj] at h
    exact ⟨hgroup, hvalue, Text.toString_injective h⟩
  · rintro ⟨hgroup, hvalue, hindex⟩
    unfold describeBy
    rw [hgroup, hvalue, hindex]

end Token

namespace Lexer

variable {φ ψ : Type}

theorem describeBy_eq_iff {shows : Char → Bool} {l : Lexer φ} {m : Lexer ψ} :
    l.describeBy shows = m.describeBy shows ↔ l.current.Same m.current := by
  unfold describeBy
  rw [String.append_left_inj, String.append_right_inj, Token.describeBy_eq_iff]

/-- Two tokens are described alike exactly if they are the same up to the source, and two lexers exactly if their
current tokens are; and so it is whatever characters are taken to show. -/
theorem described_alike_iff (t u : Token) (l : Lexer φ) (m : Lexer ψ) (shows : Char → Bool) :
    (t.describe = u.describe ↔ t.Same u) ∧ (l.describe = m.describe ↔ l.current.Same m.current) ∧
      (t.describeBy shows = u.describeBy shows ↔ t.Same u) ∧
      (l.describeBy shows = m.describeBy shows ↔ l.current.Same m.current) :=
  ⟨Token.describeBy_eq_iff, describeBy_eq_iff, Token.describeBy_eq_iff, describeBy_eq_iff⟩

end Lexer

/-- A quote in the group changes the quotes around it, and a value may look like what follows it. -/
example : (⟨"it's", "a', index=1)\t", 3, none⟩ : Token).describe =
    "Token(group=\"it's\", value=\"a', index=1)\\t\", index=3)" := by
  rfl

end Lookahead
