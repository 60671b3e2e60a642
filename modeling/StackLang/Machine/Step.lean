import StackLang.Fault
import StackLang.Machine

/-!
# Instructions

`Op.run` is what one instruction does to a machine. It never writes output itself: a builtin that
writes says so in its effect, and whoever runs the machine writes the text.
-/

namespace StackLang

/-- The outcome of one instruction. -/
inductive Effect where
  /-- The machine goes on. -/
  | next (m : Machine)
  /-- A text is to be written; then the machine goes on behind the instruction. -/
  | emit (text : Bytes) (m : Machine)
  /-- The instruction failed, and left the machine like this. -/
  | fault (f : Fault) (m : Machine)
  /-- There is no such instruction. -/
  | stuck
deriving DecidableEq, Repr

namespace Machine

/-! ## Parts of instructions -/

def underflow (m : Machine) (word : String) (needed : Nat) : Effect :=
  .fault (.underflow word needed m.stack.height) m

def mismatch (m : Machine) (e : Mismatch) : Effect := .fault (.mismatch e) m

/-- The machine without its top `n` values. -/
def drop (m : Machine) (n : Nat) : Machine := { m with stack := m.stack.drop n }

/-- Put values in place of the top `n`, without regard to the limit. -/
def replace (m : Machine) (n : Nat) (vs : List Value) : Effect :=
  .next { m with stack := m.stack.replace n vs, pc := m.pc + 1 }

/-- Push the result of an instruction. -/
def push (m : Machine) (v : Value) : Effect :=
  if m.stack.full m.stackLimit then .fault (.stackOverflow m.stackLimit) m
  else .next { m with stack := m.stack.push v, pc := m.pc + 1 }

/-- Pop the operands of an instruction on two integers. -/
def popIntegers (m : Machine) (word : String) (f : Int64 → Int64 → Machine → Effect) : Effect :=
  match m.stack.items with
  | b :: a :: _ =>
    match a, b with
    | .int a, .int b => f a b (m.drop 2)
    | a, b => m.mismatch (.integers word a.kind b.kind)
  | _ => m.underflow word 2

/-- Run code: a block is called, and goes back behind the current instruction in the end; a builtin
is done at once. -/
def dispatch (m : Machine) (c : Code) : Effect :=
  match c with
  | .block start =>
    if m.calls.full m.callLimit then .fault (.callOverflow m.callLimit) m
    else .next { m with calls := m.calls.push m.pc, pc := start }
  | .builtin i =>
    match Builtin.ofIndex? i with
    | some .print =>
      match m.stack.items with
      | v :: _ => .emit (v.format m.symbols .raw) m
      | [] => m.underflow "print" 1
    | some .nl => .emit (lit "\n") m
    | some .stack => .emit m.formatStack m
    | none => m.mismatch (.noBuiltin i)
  | .other _ _ => m.mismatch (.invalidCode c)

/-- Do something with the innermost loop. -/
def withLoop (m : Machine) (f : Loop → List Loop → Effect) : Effect :=
  match m.loops with
  | l :: loops => f l loops
  | [] => .fault (.noLoop m.pc) m

end Machine

/-! ## Instructions -/

def Arithmetic.word : Arithmetic → String
  | sub => "-"
  | mul => "*"

def Comparison.word : Comparison → String
  | lt => "<"
  | le => "<="
  | gt => ">"
  | ge => ">="

def Connective.word : Connective → String
  | and => "and"
  | or => "or"

namespace Op

/-- ( a b -- a+b ) -/
def runAdd (m : Machine) : Effect :=
  match m.stack.items with
  | b :: a :: _ =>
    match a, b with
    | .int a, .int b => (m.drop 2).push (.int (a + b))
    | .str a, .str b =>
      let (symbols, h) := m.symbols.intern (m.symbols.joined a b)
      { m.drop 2 with symbols }.push (.str h)
    | a, b => m.mismatch (.add a.kind b.kind)
  | _ => m.underflow "+" 2

/-- ( code sym -- ) -/
def runDefine (m : Machine) : Effect :=
  match m.stack.items with
  | s :: c :: _ =>
    match c, s with
    | .code c, .sym h => .next { m.drop 2 with words := m.words.define h c, pc := m.pc + 1 }
    | c, s => m.mismatch (.define c.kind s.kind)
  | _ => m.underflow "def" 2

/-- ( cond body -- ) -/
def runLoopEnter (m : Machine) : Effect :=
  match m.stack.items with
  | b :: c :: _ =>
    match c, b with
    | .code c, .code b => .next { m.drop 2 with loops := ⟨c, b⟩ :: m.loops, pc := m.pc + 1 }
    | c, b => m.mismatch (.loop c.kind b.kind)
  | _ => m.underflow "while" 2

/-- ( code -- ) -/
def runExec (m : Machine) : Effect :=
  match m.stack.items with
  | v :: _ =>
    match v with
    | .code c => (m.drop 1).dispatch c
    | v => m.mismatch (.exec v.kind)
  | [] => m.underflow "exec" 1

/-- What an instruction does to the machine that stands at it. -/
def run (m : Machine) : Op → Effect
  | push v => m.push v
  | call h =>
    match m.words.find? h with
    | some c => m.dispatch c
    | none => .fault (.unimplemented (m.symbols.text h)) m
  | ret =>
    match m.calls.items with
    | a :: _ => .next { m with calls := m.calls.drop 1, pc := m.behind a }
    | [] => .fault (.noCall m.pc) m
  | define => runDefine m
  | add => runAdd m
  | arith f => m.popIntegers f.word fun a b m => m.push (.int (f.apply a b))
  | div => m.popIntegers "/" fun a b m =>
    if b = 0 then .fault (.divideByZero a) m else m.push (.int (a / b))
  | compare f => m.popIntegers f.word fun a b m => m.push (.bool (f.apply a b))
  | eq =>
    match m.stack.items with
    | b :: a :: _ => (m.drop 2).push (.bool (a = b))
    | _ => m.underflow "=" 2
  | drop =>
    match m.stack.items with
    | _ :: _ => m.replace 1 []
    | [] => m.underflow "." 1
  | dup =>
    match m.stack.items with
    | v :: _ => m.push v
    | [] => m.underflow "dup" 1
  | swap =>
    match m.stack.items with
    | b :: a :: _ => m.replace 2 [a, b]
    | _ => m.underflow "swap" 2
  | rot =>
    match m.stack.items with
    | c :: b :: a :: _ => m.replace 3 [a, c, b]
    | _ => m.underflow "rot" 3
  | unrot =>
    match m.stack.items with
    | c :: b :: a :: _ => m.replace 3 [b, a, c]
    | _ => m.underflow "-rot" 3
  | not =>
    match m.stack.items with
    | v :: _ => m.replace 1 [.bool (!v.truth)]
    | [] => m.underflow "not" 1
  | connect f =>
    match m.stack.items with
    | b :: a :: _ => (m.drop 2).push (.bool (f.apply a.truth b.truth))
    | _ => m.underflow f.word 2
  | exec => runExec m
  | select =>
    match m.stack.items with
    | f :: t :: c :: _ => m.replace 3 [if c.truth then t else f]
    | _ => m.underflow "if" 3
  | loopEnter => runLoopEnter m
  | loopCond => m.withLoop fun l _ => m.dispatch l.cond
  | loopExit target => m.withLoop fun _ loops =>
    match m.stack.items with
    | v :: _ => if v.truth then m.replace 1 [] else .next { m.drop 1 with loops, pc := target }
    | [] => m.underflow "while" 1
  | loopBody => m.withLoop fun l _ => m.dispatch l.body
  | jump target => .next { m with pc := target }
  | other _ => .stuck

end Op

/-- The effect of the next instruction. -/
def Machine.step (m : Machine) : Effect :=
  match m.fetch? with
  | some op => op.run m
  | none => .stuck

end StackLang
