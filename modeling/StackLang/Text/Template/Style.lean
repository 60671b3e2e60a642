import StackLang.Text.Escaped

/-!
# Styles of values in messages

A style says how a value is laid out: how wide it is at least, on which side and with what it is
filled up, how much of it is shown, and with which signs and marks.
-/

namespace StackLang.Template

structure Style where
  /-- Mark the base of a number, or leave a quoted text without escapes where that can be. -/
  alternate : Bool := false
  /-- Write a text as a literal. -/
  literal : Bool := false
  /-- Show the sign of every number; keep a quoted text to ASCII. -/
  plus : Bool := false
  /-- Fill up on the right. -/
  left : Bool := false
  /-- Leave room for a sign, or between bytes. -/
  blank : Bool := false
  /-- Fill up with zeros, on the left only. -/
  zeros : Bool := false
  width : Option Nat := none
  precision : Option Nat := none
deriving DecidableEq, Repr

/-- A digit of any base up to 16. -/
def digit (upper : Bool) (n : Nat) : UInt8 :=
  if n < 10 then 0x30 + n.toUInt8 else (if upper then 0x37 else 0x57) + n.toUInt8

/-- `n` in a base, most significant digit first. -/
def digits (base : Nat) (upper : Bool) (n : Nat) : Bytes :=
  if _ : 2 ≤ base ∧ base ≤ n then digits base upper (n / base) ++ [digit upper (n % base)]
  else [digit upper n]
termination_by n
decreasing_by exact Nat.div_lt_self (by omega) (by omega)

/-- At least so many places, with zeros in front. -/
def places (count : Nat) (ds : Bytes) : Bytes :=
  List.replicate (count - ds.length) Byte.zero ++ ds

namespace Style

/-! ## Width and precision -/

def filler (st : Style) : UInt8 := if st.zeros && !st.left then Byte.zero else Byte.space

def fill (st : Style) (count : Nat) (s : Bytes) : Bytes :=
  if st.left then s ++ List.replicate count st.filler else List.replicate count st.filler ++ s

/-- Fill a text up to the width, which counts glyphs. -/
def pad (st : Style) (s : Bytes) : Bytes := st.fill (st.width.getD 0 - (Utf8.decode s).length) s

/-- As many glyphs of a text as the precision lets through. -/
def truncate (st : Style) (s : Bytes) : Bytes :=
  match st.precision with
  | none => s
  | some n => ((Utf8.decode s).take n).flatMap Glyph.bytes

/-! ## Integers -/

def sign (st : Style) (n : Int) : Bytes :=
  if n < 0 then lit "-" else if st.plus then lit "+" else if st.blank then lit " " else []

/-- The mark of a base in front of the digits. -/
def mark (st : Style) (base : Nat) (upper : Bool) (ds : Bytes) : Bytes :=
  if !st.alternate then []
  else if base = 2 then lit "0b"
  else if base = 16 then (if upper then lit "0X" else lit "0x")
  else if base = 8 ∧ ds.head? ≠ some Byte.zero then lit "0"
  else []

/-- An integer. The precision gives its least number of digits; without one, zeros can fill up the
width. A zero with no digits at all leaves only blanks. -/
def integer (st : Style) (base : Nat) (upper octal : Bool) (n : Int) : Bytes :=
  let sign := st.sign n
  if st.precision = some 0 ∧ n = 0 then List.replicate (st.width.getD 0) Byte.space
  else
    let count :=
      match st.precision with
      | some count => count
      | none => if st.zeros && !st.left then st.width.getD 0 - sign.length else 0
    let ds := places count (digits base upper n.natAbs)
    { st with zeros := false }.pad
      (sign ++ (if octal then lit "0o" else []) ++ st.mark base upper ds ++ ds)

/-- The character that an integer stands for. -/
def character (n : Int) : Char :=
  if 0 ≤ n ∧ n.toNat.isValidChar then Char.ofNat n.toNat else Glyph.replacement

def plain (st : Style) : Text.Plain := if st.plus then .ascii else .printable

/-- A code point, with at least four digits; the alternate style shows the character too. Negative
integers count from the end of 64 bits. -/
def codePoint (st : Style) (n : Int) : Bytes :=
  let u := (n % 0x10000000000000000).toNat
  let shown :=
    if st.alternate && u.isValidChar && Text.isPrintable (Char.ofNat u) then
      lit " '" ++ Utf8.encode (Char.ofNat u) ++ lit "'"
    else []
  { st with zeros := false }.pad
    (lit "U+" ++ places (max 4 (st.precision.getD 0)) (digits 16 true u) ++ shown)

/-! ## Texts -/

def text (st : Style) (s : Bytes) : Bytes := st.pad (st.truncate s)

/-- A text can stand between backquotes: it has none itself, and nothing that would not show. -/
def canBackquote (s : Bytes) : Bool :=
  (Utf8.decode s).all fun
    | .char c =>
      c = '\t' || (c.toNat ≠ 0xfeff && c.toNat ≠ 0x60 && 0x20 ≤ c.toNat && c.toNat ≠ 0x7f)
    | .stray _ => false

def quoted (st : Style) (s : Bytes) : Bytes :=
  let s := st.truncate s
  st.pad <|
    if st.alternate && canBackquote s then lit "`" ++ s ++ lit "`" else Text.escapedAs st.plain s

/-- The bytes of a text in hexadecimal. -/
def hexBytes (st : Style) (upper : Bool) (s : Bytes) : Bytes :=
  let s := s.take (st.precision.getD s.length)
  let mark := st.mark 16 upper []
  let pair (b : UInt8) : Bytes := [digit upper (b.toNat / 16), digit upper (b.toNat % 16)]
  let shown :=
    if s.isEmpty then []
    else if st.blank then Bytes.join (lit " ") (s.map fun b => mark ++ pair b)
    else mark ++ s.flatMap pair
  st.fill (st.width.getD 0 - shown.length) shown

end Style

end StackLang.Template
