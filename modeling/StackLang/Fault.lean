import StackLang.Token
import StackLang.Value

/-!
# Faults

Everything that can be wrong with a source or go wrong in an instruction. A fault records its cause;
its wording is in `Fault.message`.
-/

namespace StackLang

/-! ## Sources -/

inductive ParseCause where
  | invalidNumber (text : Bytes)
  | unmatchedClose
  | unexpectedToken (kind : Token.Kind)
  | unterminatedString
  | unclosedBlock
deriving DecidableEq, Repr

namespace ParseCause

def message : ParseCause → Bytes
  | invalidNumber text => lit "invalid number " ++ Text.escaped text
  | unmatchedClose => lit "unmatched \x7d"
  | unexpectedToken kind => lit "unexpected " ++ kind.name ++ lit " token"
  | unterminatedString => lit "unterminated string"
  | unclosedBlock => lit "unclosed block"

/-- The source ended too early; more text could still make it right. -/
def incomplete : ParseCause → Bool
  | unterminatedString => true
  | unclosedBlock => true
  | _ => false

end ParseCause

structure ParseError where
  position : Position
  cause : ParseCause
deriving DecidableEq, Repr

def ParseError.message (e : ParseError) : Bytes :=
  e.position.format ++ lit ": " ++ e.cause.message

/-! ## Instructions -/

/-- Values or code that an instruction cannot work with. -/
inductive Mismatch where
  | define (below top : Kind)
  | add (a b : Kind)
  | integers (word : String) (a b : Kind)
  | exec (kind : Kind)
  | loop (cond body : Kind)
  | noBuiltin (index : Int)
  | invalidCode (c : Code)
deriving DecidableEq, Repr

namespace Mismatch

def pair (a b : Kind) : Bytes := a.name ++ lit " " ++ b.name

def message : Mismatch → Bytes
  | define below top => lit "def takes code and a symbol, got " ++ pair below top
  | add a b => lit "+ is only defined for int and str, got " ++ pair a b
  | integers word a b => lit word ++ lit " is only defined for int, got " ++ pair a b
  | exec kind => lit "exec takes code, got " ++ kind.name
  | loop cond body => lit "while takes two code values, got " ++ pair cond body
  | noBuiltin index => lit "no builtin #" ++ Decimal.ofInt index
  | invalidCode c => lit "invalid code " ++ c.format

end Mismatch

inductive Fault where
  | unimplemented (word : Bytes)
  | mismatch (m : Mismatch)
  | underflow (word : String) (needed held : Nat)
  | stackOverflow (limit : Int)
  | callOverflow (limit : Int)
  | noCall (address : Int)
  | noLoop (address : Int)
  | divideByZero (dividend : Int64)
  | parsing (e : ParseError)
deriving DecidableEq, Repr

namespace Fault

/-- The class of a fault. -/
def category : Fault → Bytes
  | unimplemented _ => lit "stack.unimplemented"
  | mismatch _ => lit "stack.invalid_type"
  | underflow _ _ _ => lit "stack.stack_underflow"
  | stackOverflow _ => lit "stack.stack_overflow"
  | callOverflow _ => lit "stack.stack_overflow"
  | noCall _ => lit "stack.call_stack_underflow"
  | noLoop _ => lit "stack.call_stack_underflow"
  | divideByZero _ => lit "stack.divide_by_zero"
  | parsing _ => lit "stack.parsing"

def description : Fault → Bytes
  | unimplemented word => Text.escaped word ++ lit " is not implemented"
  | mismatch m => m.message
  | underflow word needed held =>
    lit word ++ lit " needs " ++ Decimal.ofNat needed ++ lit " values, stack has " ++
      Decimal.ofNat held
  | stackOverflow limit => lit "value stack limit " ++ Decimal.ofInt limit ++ lit " exceeded"
  | callOverflow limit => lit "call depth limit " ++ Decimal.ofInt limit ++ lit " exceeded"
  | noCall address => lit "return @" ++ Decimal.ofInt address ++ lit " with no pending call"
  | noLoop address => lit "no running loop @" ++ Decimal.ofInt address
  | divideByZero dividend => Decimal.ofInt dividend.toInt ++ lit " / 0"
  | parsing e => e.message

def message (f : Fault) : Bytes := f.category ++ lit ": " ++ f.description

/-- A parsing fault that more text could mend. -/
def incomplete : Fault → Bool
  | parsing e => e.cause.incomplete
  | _ => false

end Fault

end StackLang
