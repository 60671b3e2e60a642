import StackLang.Text.Bytes

/-!
# String literals

A string is written between double quotes, and each quote in it is written twice.
-/

namespace StackLang.Literal

/-- Every quote doubled. -/
def doubleQuotes : Bytes → Bytes
  | [] => []
  | b :: r => if b = Byte.quote then b :: b :: doubleQuotes r else b :: doubleQuotes r

/-- Each pair of neighbouring quotes, taken from the left, becomes one. -/
def halveQuotes : Bytes → Bytes
  | [] => []
  | [b] => [b]
  | b :: c :: r =>
    if b = Byte.quote ∧ c = Byte.quote then b :: halveQuotes r else b :: halveQuotes (c :: r)

def quote (s : Bytes) : Bytes := Byte.quote :: doubleQuotes s ++ [Byte.quote]

/-- The text between a first and a last byte that are both quotes; any other text as it is. -/
def stripQuotes (s : Bytes) : Bytes :=
  match s with
  | b :: c :: r =>
    if b = Byte.quote ∧ (c :: r).getLast? = some Byte.quote then (c :: r).dropLast else s
  | s => s

def unquote (s : Bytes) : Bytes := halveQuotes (stripQuotes s)

end StackLang.Literal
