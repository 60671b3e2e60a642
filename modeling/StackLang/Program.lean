import StackLang.Value

/-!
# Programs

A program is one flat buffer of instructions. A block of code is a run of instructions that ends in
`ret`; the top-level code starts at the entry and runs off the end of the buffer. Addresses count
instructions from the start of the buffer.
-/

namespace StackLang

inductive Arithmetic where
  | sub
  | mul
deriving DecidableEq, Repr

def Arithmetic.apply : Arithmetic → Int64 → Int64 → Int64
  | sub, a, b => a - b
  | mul, a, b => a * b

inductive Comparison where
  | lt
  | le
  | gt
  | ge
deriving DecidableEq, Repr

def Comparison.apply : Comparison → Int64 → Int64 → Bool
  | lt, a, b => a < b
  | le, a, b => a ≤ b
  | gt, a, b => b < a
  | ge, a, b => b ≤ a

inductive Connective where
  | and
  | or
deriving DecidableEq, Repr

def Connective.apply : Connective → Bool → Bool → Bool
  | and, a, b => a && b
  | or, a, b => a || b

/-- An instruction. A code above 27 names none. -/
inductive Op where
  /-- Push a value. -/
  | push (v : Value)
  /-- Run the definition of a word. -/
  | call (word : Handle)
  /-- Go back behind the instruction that called the block. -/
  | ret
  /-- ( code sym -- ) Bind a word. -/
  | define
  /-- ( a b -- a+b ) Add integers, join strings. -/
  | add
  /-- ( a b -- a∘b ) -/
  | arith (f : Arithmetic)
  /-- ( a b -- a/b ) Divide, toward zero. -/
  | div
  /-- ( a b -- flag ) -/
  | compare (f : Comparison)
  /-- ( a b -- a=b ) -/
  | eq
  /-- ( a -- ) -/
  | drop
  /-- ( a -- a a ) -/
  | dup
  /-- ( a b -- b a ) -/
  | swap
  /-- ( a b c -- b c a ) -/
  | rot
  /-- ( a b c -- c a b ) -/
  | unrot
  /-- ( a -- a=false ) -/
  | not
  /-- ( a b -- flag ) -/
  | connect (f : Connective)
  /-- ( code -- ) Run code. -/
  | exec
  /-- ( flag t f -- t|f ) Keep one of two. -/
  | select
  /-- ( cond body -- ) Enter a loop. -/
  | loopEnter
  /-- Run the condition of the innermost loop. -/
  | loopCond
  /-- ( flag -- ) Leave the innermost loop to `target` if the flag is false. -/
  | loopExit (target : Int)
  /-- Run the body of the innermost loop. -/
  | loopBody
  /-- Go on at `target`. -/
  | jump (target : Int)
  | other (code : UInt8)
deriving DecidableEq, Repr

namespace Op

/-- One instruction of each code, in code order. Operands are zero. -/
def all : List Op :=
  [push (.bool false), call 0, ret, define, add, arith .sub, arith .mul, div, compare .lt,
    compare .le, compare .gt, compare .ge, eq, drop, dup, swap, rot, unrot, not, connect .and,
    connect .or, exec, select, loopEnter, loopCond, loopExit 0, loopBody, jump 0]

def ofCode (code : UInt8) : Op := all[code.toNat]?.getD (other code)

def name : Op → Bytes
  | push _ => lit "push"
  | call _ => lit "call"
  | ret => lit "return"
  | define => lit "def"
  | add => lit "add"
  | arith .sub => lit "sub"
  | arith .mul => lit "mul"
  | div => lit "div"
  | compare .lt => lit "lt"
  | compare .le => lit "lte"
  | compare .gt => lit "gt"
  | compare .ge => lit "gte"
  | eq => lit "eq"
  | drop => lit "drop"
  | dup => lit "dup"
  | swap => lit "swap"
  | rot => lit "rot"
  | unrot => lit "unrot"
  | not => lit "not"
  | connect .and => lit "and"
  | connect .or => lit "or"
  | exec => lit "exec"
  | select => lit "condpop"
  | loopEnter => lit "loopenter"
  | loopCond => lit "loopcond"
  | loopExit _ => lit "while"
  | loopBody => lit "loopbody"
  | jump _ => lit "jump"
  | other code => lit "op(" ++ Decimal.ofNat code.toNat ++ lit ")"

def ofName? (s : Bytes) : Option Op := all.find? fun op => op.name = s

/-- The address that an instruction can go on at instead of the next one. -/
def target? : Op → Option Int
  | loopExit a => some a
  | jump a => some a
  | _ => none

/-- The instruction with its target moved by `base`. -/
def relocate (base : Int) : Op → Op
  | loopExit a => loopExit (a + base)
  | jump a => jump (a + base)
  | op => op

def format (r : Registry) (op : Op) : Bytes :=
  match op with
  | push v => op.name ++ lit " " ++ v.format r .quoted
  | call h => op.name ++ lit " " ++ r.text h
  | loopExit a => op.name ++ lit " @" ++ Decimal.ofInt a
  | jump a => op.name ++ lit " @" ++ Decimal.ofInt a
  | op => op.name

end Op

structure Program where
  ops : Array Op := #[]
  entry : Int := 0
deriving DecidableEq, Repr

end StackLang
