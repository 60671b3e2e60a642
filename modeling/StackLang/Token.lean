import StackLang.Text.Decimal
import StackLang.Text.Escaped

/-!
# Tokens

A token is a span of source text with the position of its first byte. A string token keeps its
quotes, a symbol token its colon.
-/

namespace StackLang

/-- The place of a byte in a source; lines and columns count from 1, offsets from 0. A token that
comes from no source may be placed anywhere. -/
structure Position where
  offset : Int
  line : Int
  column : Int
deriving DecidableEq, Repr

/-- Line and column, with a colon between. -/
def Position.format (p : Position) : Bytes :=
  Decimal.ofInt p.line ++ Byte.colon :: Decimal.ofInt p.column

/-- The class of a token. A tag outside 1 to 4 names no class. -/
inductive Token.Kind where
  | number
  | string
  | symbol
  | word
  | other (tag : UInt8)
deriving DecidableEq, Repr

namespace Token.Kind

def ofTag (tag : UInt8) : Kind :=
  if tag = 1 then number
  else if tag = 2 then string
  else if tag = 3 then symbol
  else if tag = 4 then word
  else other tag

def name : Kind → Bytes
  | number => lit "number"
  | string => lit "string"
  | symbol => lit "symbol"
  | word => lit "word"
  | other tag => lit "token(" ++ Decimal.ofNat tag.toNat ++ lit ")"

/-- The first byte of a token decides its class. -/
def ofFirst (b : UInt8) : Kind :=
  if b = Byte.quote then string
  else if b = Byte.colon then symbol
  else if Byte.isDigit b then number
  else word

end Token.Kind

structure Token where
  kind : Token.Kind
  text : Bytes
  position : Position
deriving DecidableEq, Repr

/-- A symbol token that lacks even its colon. No source has one, and no program can be made of it. -/
def Token.isHollow (t : Token) : Bool := t.kind = .symbol && t.text.isEmpty

/-- Position, class and escaped text. -/
def Token.format (t : Token) : Bytes :=
  t.position.format ++ lit " " ++ t.kind.name ++ lit " " ++ Text.escaped t.text

end StackLang
