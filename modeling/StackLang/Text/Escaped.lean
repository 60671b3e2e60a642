import StackLang.Text.Utf8
import StackLang.Text.Printable

/-!
# Escaped text

Messages show texts between quotes, with backslash escapes for whatever would not show as itself:
the quote, backslashes, control and other unprintable characters, and stray bytes. A text can also
be kept to ASCII, and then every other character is escaped.
-/

namespace StackLang.Text

def hexDigit (n : Nat) : UInt8 := if n < 10 then 0x30 + n.toUInt8 else 0x57 + n.toUInt8

/-- The lowest `width` hexadecimal digits of `n`. -/
def hex : (width n : Nat) → Bytes
  | 0, _ => []
  | width + 1, n => hex width (n / 16) ++ [hexDigit (n % 16)]

/-- Which characters stand for themselves. -/
inductive Plain where
  | printable
  | ascii
deriving DecidableEq, Repr

def Plain.admits (plain : Plain) (c : Char) : Bool :=
  match plain with
  | printable => isPrintable c
  | ascii => isPrintable c && c.toNat < 0x80

/-- A character between quotes of the given kind. -/
def escapedChar (plain : Plain) (quote c : Char) : Bytes :=
  if c = quote ∨ c = '\\' then lit "\\" ++ Utf8.encode c
  else if plain.admits c then Utf8.encode c
  else
    match c with
    | '\x07' => lit "\\a"
    | '\x08' => lit "\\b"
    | '\x0c' => lit "\\f"
    | '\n' => lit "\\n"
    | '\r' => lit "\\r"
    | '\t' => lit "\\t"
    | '\x0b' => lit "\\v"
    | c =>
      if c.toNat < 0x80 then lit "\\x" ++ hex 2 c.toNat
      else if c.toNat < 0x10000 then lit "\\u" ++ hex 4 c.toNat
      else lit "\\U" ++ hex 8 c.toNat

def escapedGlyph (plain : Plain) : Glyph → Bytes
  | .char c => escapedChar plain '"' c
  | .stray b => lit "\\x" ++ hex 2 b.toNat

/-- A text between double quotes. -/
def escapedAs (plain : Plain) (s : Bytes) : Bytes :=
  Byte.quote :: (Utf8.decode s).flatMap (escapedGlyph plain) ++ [Byte.quote]

def escaped (s : Bytes) : Bytes := escapedAs .printable s

/-- A character between single quotes. -/
def escapedCharacter (plain : Plain) (c : Char) : Bytes :=
  lit "'" ++ escapedChar plain '\'' c ++ lit "'"

end StackLang.Text
