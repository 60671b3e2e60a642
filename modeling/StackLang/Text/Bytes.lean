/-!
# Byte strings

Source text, names, strings and output are byte strings; nothing requires them to be UTF-8.
-/

namespace StackLang

abbrev Bytes := List UInt8

/-- The UTF-8 bytes of a fixed text. -/
def lit (s : String) : Bytes := s.toUTF8.data.toList

namespace Byte

@[match_pattern] abbrev quote : UInt8 := 0x22
@[match_pattern] abbrev newline : UInt8 := 0x0a
@[match_pattern] abbrev hash : UInt8 := 0x23
@[match_pattern] abbrev colon : UInt8 := 0x3a
@[match_pattern] abbrev minus : UInt8 := 0x2d
@[match_pattern] abbrev plus : UInt8 := 0x2b
@[match_pattern] abbrev zero : UInt8 := 0x30
@[match_pattern] abbrev space : UInt8 := 0x20

/-- Space, tab, line feed and carriage return separate tokens. -/
def isSpace (b : UInt8) : Bool := b == 0x20 || b == 0x09 || b == 0x0a || b == 0x0d

def isDigit (b : UInt8) : Bool := 0x30 ≤ b && b ≤ 0x39

/-- ASCII upper case letters become lower case; all else stays. -/
def toLower (b : UInt8) : UInt8 := if 0x41 ≤ b && b ≤ 0x5a then b + 0x20 else b

end Byte

namespace Bytes

/-- Texts with `sep` between neighbours. -/
def join (sep : Bytes) : List Bytes → Bytes
  | [] => []
  | [t] => t
  | t :: ts => t ++ sep ++ join sep ts

/-- `n` spaces. -/
def spaces (n : Nat) : Bytes := List.replicate n Byte.space

/-- `pattern` occurs somewhere in the text. -/
def contains (pattern : Bytes) : Bytes → Bool
  | [] => pattern.isEmpty
  | b :: r => pattern.isPrefixOf (b :: r) || contains pattern r

/-- Bytewise lexicographic order. -/
def le : Bytes → Bytes → Bool
  | [], _ => true
  | _ :: _, [] => false
  | a :: r, b :: s => if a = b then le r s else a < b

/-- The text in compact form. -/
def pack (s : Bytes) : ByteArray := ⟨s.toArray⟩

def unpack (b : ByteArray) : Bytes := b.data.toList

theorem unpack_pack (s : Bytes) : unpack s.pack = s := by
  simp [unpack, pack]

theorem pack_unpack (b : ByteArray) : (unpack b).pack = b := by
  simp [unpack, pack]

theorem pack_append (s t : Bytes) : (s ++ t).pack = s.pack ++ t.pack := by
  apply ByteArray.ext
  simp [pack]

theorem pack_inj {s t : Bytes} : s.pack = t.pack ↔ s = t := by
  simp [pack]

end Bytes

end StackLang
