import StackLang.Text.Bytes

/-!
# Decimal numbers

Integers are written in decimal without leading zeros. A number token is read as an optionally
signed run of digits that fits 64 bits.
-/

namespace StackLang.Decimal

def digit (n : Nat) : UInt8 := Byte.zero + n.toUInt8

def ofNat (n : Nat) : Bytes :=
  if n < 10 then [digit n] else ofNat (n / 10) ++ [digit (n % 10)]

def ofInt : Int → Bytes
  | .ofNat n => ofNat n
  | .negSucc n => Byte.minus :: ofNat (n + 1)

def digitValue (b : UInt8) : Nat := b.toNat - 0x30

/-- The value of a run of digits, most significant first. -/
def value (ds : Bytes) : Nat := ds.foldl (fun n d => 10 * n + digitValue d) 0

/-- A non-empty text of digits only. -/
def nat? (s : Bytes) : Option Nat :=
  if s.isEmpty then none else if s.all Byte.isDigit then some (value s) else none

/-- An optional sign and digits, in the range of 64-bit two's complement. -/
def int64? (s : Bytes) : Option Int64 :=
  match s with
  | Byte.minus :: ds => do
    let n ← nat? ds
    if n ≤ 0x8000000000000000 then some (Int64.ofInt (-n)) else none
  | Byte.plus :: ds => unsigned ds
  | ds => unsigned ds
where
  unsigned (ds : Bytes) : Option Int64 := do
    let n ← nat? ds
    if n < 0x8000000000000000 then some (Int64.ofNat n) else none

/-- `n` in at least `width` places, filled with spaces on the left. -/
def padded (width n : Nat) : Bytes :=
  let ds := ofNat n
  Bytes.spaces (width - ds.length) ++ ds

end StackLang.Decimal
