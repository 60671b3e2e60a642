import StackLang.Text.Bytes

/-!
# UTF-8

A byte string is read as a sequence of glyphs: characters in their shortest UTF-8 form, and stray
bytes, which start no such form. Every byte string has exactly one reading.
-/

namespace StackLang

inductive Glyph where
  | char (c : Char)
  | stray (b : UInt8)
deriving DecidableEq, Repr

namespace Glyph

/-- The replacement character stands for a stray byte. -/
def replacement : Char := '\uFFFD'

def toChar : Glyph → Char
  | char c => c
  | stray _ => replacement

end Glyph

namespace Utf8

def encode (c : Char) : Bytes := String.utf8EncodeChar c

end Utf8

/-- The bytes that a glyph was read from. -/
def Glyph.bytes : Glyph → Bytes
  | char c => Utf8.encode c
  | stray b => [b]

namespace Utf8

/-- The character `n`, provided that it needs a form that starts at `least`. -/
def scalar? (least n : Nat) : Option Char :=
  if least ≤ n ∧ n.isValidChar then some (Char.ofNat n) else none

def isTail (b : UInt8) : Bool := 0x80 ≤ b && b < 0xc0

def tailBits (b : UInt8) : Nat := b.toNat - 0x80

/-- The character whose form starts the text, and the text after it. -/
def first? : Bytes → Option (Char × Bytes)
  | [] => none
  | a :: r =>
    if a < 0x80 then some (Char.ofNat a.toNat, r)
    else if a < 0xc0 then none
    else if a < 0xe0 then
      match r with
      | b :: r =>
        if isTail b then
          (scalar? 0x80 ((a.toNat - 0xc0) * 64 + tailBits b)).map (·, r)
        else none
      | _ => none
    else if a < 0xf0 then
      match r with
      | b :: c :: r =>
        if isTail b && isTail c then
          (scalar? 0x800 (((a.toNat - 0xe0) * 64 + tailBits b) * 64 + tailBits c)).map (·, r)
        else none
      | _ => none
    else if a < 0xf8 then
      match r with
      | b :: c :: d :: r =>
        if isTail b && isTail c && isTail d then
          (scalar? 0x10000
            ((((a.toNat - 0xf0) * 64 + tailBits b) * 64 + tailBits c) * 64 + tailBits d)).map (·, r)
        else none
      | _ => none
    else none

theorem first?_length {s rest : Bytes} {c : Char} (h : first? s = some (c, rest)) :
    rest.length < s.length := by
  unfold first? at h
  repeat' split at h
  all_goals
    simp only [Option.map_eq_some_iff, Prod.mk.injEq, Option.some.injEq, reduceCtorEq] at h
  all_goals
    grind

/-- The glyphs of a text. -/
def decode : Bytes → List Glyph
  | [] => []
  | b :: r =>
    match h : first? (b :: r) with
    | some (c, rest) =>
      have := first?_length h
      .char c :: decode rest
    | none => .stray b :: decode r
termination_by s => s.length
decreasing_by
  · exact this
  · exact Nat.lt_succ_self r.length

/-- No byte of the text is stray. -/
def valid (s : Bytes) : Bool :=
  (decode s).all fun
    | .char _ => true
    | .stray _ => false

end Utf8

end StackLang
