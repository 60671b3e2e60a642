import StackLang.Text.Decimal

/-!
# Values of options

Integers may be written in base 2, 8, 10 or 16 and have underscores between digits, truth values in
a few spellings, and durations as sums of numbers with units.
-/

namespace StackLang.Command

/-- Why the value of an option is refused. -/
inductive ScalarError where
  | malformed
  | outOfRange
deriving DecidableEq, Repr

def ScalarError.message : ScalarError → Bytes
  | malformed => lit "parse error"
  | outOfRange => lit "value out of range"

/-! ## Truth values -/

def boolean? (s : Bytes) : Option Bool :=
  if ["1", "t", "T", "true", "TRUE", "True"].any (lit · = s) then some true
  else if ["0", "f", "F", "false", "FALSE", "False"].any (lit · = s) then some false
  else none

/-! ## Integers -/

/-- A digit of any base up to 36. -/
def digit? (b : UInt8) : Option Nat :=
  if Byte.isDigit b then some (b.toNat - 0x30)
  else if 0x61 ≤ Byte.toLower b && Byte.toLower b ≤ 0x7a then some ((Byte.toLower b).toNat - 0x57)
  else none

def underscore : UInt8 := 0x5f

/-- The base that a number announces, and its digits. -/
def splitBase (s : Bytes) : Nat × Bytes :=
  match s with
  | Byte.zero :: b :: c :: r =>
    if Byte.toLower b = 0x62 then (2, c :: r)
    else if Byte.toLower b = 0x6f then (8, c :: r)
    else if Byte.toLower b = 0x78 then (16, c :: r)
    else (8, b :: c :: r)
  | Byte.zero :: r => (8, r)
  | s => (10, s)

/-- The value of digits with underscores in any place. It is out of range as soon as 64 bits do not
hold it, whatever follows. -/
def magnitude (base : Nat) : (n : Nat) → Bytes → Except ScalarError Nat
  | n, [] => .ok n
  | n, b :: r =>
    if b = underscore then magnitude base n r
    else
      match digit? b with
      | none => .error .malformed
      | some d =>
        if base ≤ d then .error .malformed
        else if 0x10000000000000000 ≤ n * base + d then .error .outOfRange
        else magnitude base (n * base + d) r

/-- Underscores stand between digits only; the announcement of a base counts as a digit. -/
def underscoresSeparate (s : Bytes) : Bool :=
  match s with
  | Byte.zero :: b :: r =>
    let b := Byte.toLower b
    if b = 0x62 || b = 0x6f || b = 0x78 then go (b = 0x78) 0x30 r else go false 0x5e s
  | s => go false 0x5e s
where
  go (hex : Bool) : (last : UInt8) → Bytes → Bool
    | last, [] => last ≠ underscore
    | last, b :: r =>
      if Byte.isDigit b || (hex && 0x61 ≤ Byte.toLower b && Byte.toLower b ≤ 0x66) then go hex 0x30 r
      else if b = underscore then last = 0x30 && go hex underscore r
      else last ≠ underscore && go hex 0x21 r

def natural (s : Bytes) : Except ScalarError Nat :=
  if s.isEmpty then .error .malformed
  else
    let (base, digits) := splitBase s
    match magnitude base 0 digits with
    | .error e => .error e
    | .ok n =>
      if s.any (· = underscore) && !underscoresSeparate s then .error .malformed else .ok n

/-- An integer of 64 bits, with an optional sign. -/
def integer (s : Bytes) : Except ScalarError Int :=
  match s with
  | Byte.minus :: r => do
    let n ← natural r
    if n ≤ 0x8000000000000000 then .ok (-(n : Int)) else .error .outOfRange
  | Byte.plus :: r => positive r
  | r => positive r
where
  positive (r : Bytes) : Except ScalarError Int := do
    let n ← natural r
    if n < 0x8000000000000000 then .ok n else .error .outOfRange

/-! ## Durations -/

/-- The units of time in nanoseconds. -/
def units : List (Bytes × Nat) :=
  [(lit "ns", 1), (lit "us", 1000), (lit "µs", 1000), (lit "μs", 1000), (lit "ms", 1000000),
    (lit "s", 1000000000), (lit "m", 60000000000), (lit "h", 3600000000000)]

/-- The digits of a fraction as far as 63 bits hold them, over the power of ten they go with. -/
def fraction : (n : Nat) → (scale : Float) → Bytes → Nat × Float
  | n, scale, [] => (n, scale)
  | n, scale, b :: r =>
    if 0x7fffffffffffffff / 10 < n then (n, scale)
    else
      let n' := n * 10 + Decimal.digitValue b
      if 0x8000000000000000 < n' then (n, scale) else fraction n' (scale * 10) r

/-- A fraction of a unit in nanoseconds: computed in double precision, then cut off. -/
def part (unit : Nat) (decimals : Bytes) : Nat :=
  let (n, scale) := fraction 0 1 decimals
  (n.toUInt64.toFloat * (unit.toUInt64.toFloat / scale)).toUInt64.toNat

def isNumeric (b : UInt8) : Bool := b = 0x2e || Byte.isDigit b

/-- A number with a unit, in nanoseconds, and the text after it. -/
def term? (s : Bytes) : Option (Nat × Bytes) := do
  let whole := s.takeWhile Byte.isDigit
  let s := s.dropWhile Byte.isDigit
  let (decimals, s) :=
    match s with
    | 0x2e :: r => (r.takeWhile Byte.isDigit, r.dropWhile Byte.isDigit)
    | s => ([], s)
  if whole.isEmpty && decimals.isEmpty then none
  else
    let unit ← units.lookup (s.takeWhile fun b => !isNumeric b)
    let n := Decimal.value whole
    if 0x8000000000000000 < n * unit then none
    else
      let n := n * unit + part unit decimals
      if 0x8000000000000000 < n then none else some (n, s.dropWhile fun b => !isNumeric b)

/-- A sum of terms. The sum wraps at 64 bits before it is held against 63. -/
def terms? : (fuel sum : Nat) → Bytes → Option Nat
  | _, sum, [] => some sum
  | 0, _, _ => none
  | fuel + 1, sum, s => do
    let (n, rest) ← term? s
    let sum := (sum + n) % 0x10000000000000000
    if 0x8000000000000000 < sum then none else terms? fuel sum rest

/-- A duration in nanoseconds: an optional sign and terms, or a plain zero. -/
def duration? (s : Bytes) : Option Int :=
  match s with
  | Byte.minus :: r => (magnitude? r).map fun n => -(n : Int)
  | Byte.plus :: r => positive r
  | r => positive r
where
  magnitude? (s : Bytes) : Option Nat :=
    if s = lit "0" then some 0 else if s.isEmpty then none else terms? s.length 0 s
  positive (s : Bytes) : Option Int := do
    let n ← magnitude? s
    if n < 0x8000000000000000 then some n else none

end StackLang.Command
