import StackLang.Text.Utf8

/-!
# Text for terminals

Many terminals mishandle the control characters U+0080 to U+009F. Output has them in their older
seven-bit form, an escape and a second byte; the next-line character becomes a line break.
-/

namespace StackLang.Terminal

/-- The control characters above ASCII. -/
def isControl (c : Char) : Bool := 0x80 ≤ c.toNat && c.toNat ≤ 0x9f

/-- The bytes for a code point. A number that is no code point is written as the replacement
character, but a negative one by its lowest byte. -/
def encodeRune (r : Int) : Bytes :=
  if r < 0x80 then [(r % 256).toNat.toUInt8]
  else if r = 0x85 then [0x0d, 0x0a]
  else if r ≤ 0x9f then [0x1b, (r - 0x40).toNat.toUInt8]
  else if r.toNat.isValidChar then Utf8.encode (Char.ofNat r.toNat)
  else Utf8.encode Glyph.replacement

def encodeGlyph (g : Glyph) : Bytes := encodeRune g.toChar.toNat

/-- The text holds a control character above ASCII. -/
def hasControl (s : Bytes) : Bool :=
  (Utf8.decode s).any fun
    | .char c => isControl c
    | .stray _ => false

/-- The bytes for a text. One without control characters is left as it is, stray bytes included. -/
def encode (s : Bytes) : Bytes :=
  if hasControl s then (Utf8.decode s).flatMap encodeGlyph else s

end StackLang.Terminal
