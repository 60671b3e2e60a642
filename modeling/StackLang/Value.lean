import StackLang.Symbol
import StackLang.Text.Decimal
import StackLang.Text.Literal

/-!
# Values

The data on the value stack, and the code that a value can refer to. Integers have 64 bits. Symbols
and strings are handles, so that equality of values is equality of handles.
-/

namespace StackLang

/-! ## Code -/

/-- The routines that are not written in the language itself. -/
inductive Builtin where
  | print
  | nl
  | stack
deriving DecidableEq, Repr

namespace Builtin

def all : List Builtin := [print, nl, stack]

def name : Builtin → Bytes
  | print => lit "print"
  | nl => lit "nl"
  | stack => lit "stack"

def ofIndex? : Int → Option Builtin
  | .ofNat n => all[n]?
  | .negSucc _ => none

end Builtin

/-- Something to run: the block that starts at an address, or a builtin routine by its index. Code
of any other tag cannot run. -/
inductive Code where
  | block (start : Int)
  | builtin (index : Int)
  | other (tag : UInt8) (address : Int)
deriving DecidableEq, Repr

namespace Code

def ofTag (tag : UInt8) (address : Int) : Code :=
  if tag = 1 then block address
  else if tag = 2 then builtin address
  else other tag address

def tag : Code → UInt8
  | block _ => 1
  | builtin _ => 2
  | other tag _ => tag

def address : Code → Int
  | block a => a
  | builtin a => a
  | other _ a => a

def format (c : Code) : Bytes :=
  match c with
  | block a => lit "\x7b@" ++ Decimal.ofInt a ++ lit "\x7d"
  | builtin i =>
    match Builtin.ofIndex? i with
    | some b => lit "<" ++ b.name ++ lit ">"
    | none => invalid i
  | other _ a => invalid a
where
  invalid (a : Int) : Bytes := lit "<invalid code " ++ Decimal.ofInt a ++ lit ">"

end Code

/-! ## Values -/

/-- The kind of a value; the two truth values are kinds of their own. A tag above 5 names no
kind. -/
inductive Kind where
  | bool (b : Bool)
  | int
  | sym
  | str
  | code
  | other (tag : UInt8)
deriving DecidableEq, Repr

namespace Kind

def ofTag (tag : UInt8) : Kind :=
  if tag = 0 then bool false
  else if tag = 1 then bool true
  else if tag = 2 then int
  else if tag = 3 then sym
  else if tag = 4 then str
  else if tag = 5 then code
  else other tag

def name : Kind → Bytes
  | bool false => lit "false"
  | bool true => lit "true"
  | int => lit "int"
  | sym => lit "sym"
  | str => lit "str"
  | code => lit "code"
  | other tag => lit "kind(" ++ Decimal.ofNat tag.toNat ++ lit ")"

end Kind

inductive Value where
  | bool (b : Bool)
  | int (n : Int64)
  | sym (h : Handle)
  | str (h : Handle)
  | code (c : Code)
  | other (tag : UInt8)
deriving DecidableEq, Repr

namespace Value

def kind : Value → Kind
  | bool b => .bool b
  | int _ => .int
  | sym _ => .sym
  | str _ => .str
  | code _ => .code
  | other tag => .other tag

/-- The value of a kind with nothing in it. -/
def blank : Kind → Value
  | .bool b => bool b
  | .int => int 0
  | .sym => sym 0
  | .str => str 0
  | .code => code (.other 0 0)
  | .other tag => other tag

def int? : Value → Option Int64
  | int n => some n
  | _ => none

def handle? : Value → Option Handle
  | sym h => some h
  | str h => some h
  | _ => none

def code? : Value → Option Code
  | code c => some c
  | _ => none

/-- Every value but `false` counts as true. -/
def truth (v : Value) : Bool := v ≠ bool false

/-- How a string value is written: its bytes alone, or as a literal. -/
inductive StringStyle where
  | raw
  | quoted
deriving DecidableEq, Repr

def format (r : Registry) (style : StringStyle) : Value → Bytes
  | bool false => lit "false"
  | bool true => lit "true"
  | int n => Decimal.ofInt n.toInt
  | sym h => Byte.colon :: r.text h
  | str h =>
    match style with
    | .raw => r.text h
    | .quoted => Literal.quote (r.text h)
  | code c => c.format
  | other tag => lit "<" ++ (Kind.other tag).name ++ lit ">"

/-- The values of a list in brackets, first to last, strings as literals. -/
def formatList (r : Registry) (vs : List Value) : Bytes :=
  lit "[" ++ Bytes.join (lit " ") (vs.map (format r .quoted)) ++ lit "]"

end Value

end StackLang
