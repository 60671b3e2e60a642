import StackLang.Program
import StackLang.Stack

/-!
# The machine

The state that instructions work on. There are three stacks: values, the addresses of pending calls,
and the running loops. Nothing rules out states that no source leads
to, such as a program counter outside the program or a stack above its limit.
-/

namespace StackLang

/-! ## Definitions of words -/

/-- What each defined word runs. A word has at most one entry. -/
structure Dictionary where
  entries : List (Handle × Code) := []
deriving DecidableEq, Repr

namespace Dictionary

def find? (d : Dictionary) (word : Handle) : Option Code := d.entries.lookup word

/-- Bind a word, in place of any earlier definition of it. -/
def define (d : Dictionary) (word : Handle) (c : Code) : Dictionary :=
  ⟨(word, c) :: d.entries.filter fun e => e.1 ≠ word⟩

end Dictionary

/-! ## State -/

/-- A running loop. -/
structure Loop where
  cond : Code
  body : Code
deriving DecidableEq, Repr

structure Machine where
  symbols : Registry := {}
  program : Program := {}
  /-- The address of the next instruction. -/
  pc : Int := 0
  stack : Stack Value := .ofList []
  calls : Stack Int := .ofList []
  /-- The running loops, innermost first. -/
  loops : List Loop := []
  words : Dictionary := {}
  /-- The most values the stack may hold, if not 0. -/
  stackLimit : Int := 0
  /-- The most calls that may be pending, if not 0. -/
  callLimit : Int := 0
deriving DecidableEq, Repr

namespace Machine

/-- The machine goes on until its program counter passes the end of the program. -/
def running (m : Machine) : Bool := m.pc < m.program.ops.size

def fetch? (m : Machine) : Option Op :=
  match m.pc with
  | .ofNat n => m.program.ops[n]?
  | .negSucc _ => none

/-- The address behind `a`. Addresses have 64 bits; the lowest one follows on the highest, which no
instruction has. -/
def behind (m : Machine) (a : Int) : Int :=
  if a = 0x7fffffffffffffff ∧ m.program.ops.size ≤ a then -0x8000000000000000 else a + 1

/-- The machine behind the current instruction. -/
def advance (m : Machine) : Machine := { m with pc := m.pc + 1 }

/-- All stacks empty, and nothing left to run. -/
def reset (m : Machine) : Machine :=
  { m with stack := .ofList [], calls := .ofList [], loops := [], pc := m.program.ops.size }

/-- The builtin routines, each bound to its name. -/
def defineBuiltins (m : Machine) : Machine :=
  (Builtin.all.zipIdx).foldl
    (fun m (b, i) =>
      let (symbols, h) := m.symbols.intern (.ofWord b.name)
      { m with symbols, words := m.words.define h (.builtin i) })
    m

/-- The value stack from bottom to top. -/
def values (m : Machine) : List Value := m.stack.items.reverse

def formatStack (m : Machine) : Bytes := Value.formatList m.symbols m.values

/-- The addresses of the pending calls in brackets, outermost first. -/
def formatCalls (m : Machine) : Bytes :=
  lit "[" ++ Bytes.join (lit " ") (m.calls.items.reverse.map Decimal.ofInt) ++ lit "]"

end Machine

end StackLang
