import StackLang.Fault
import StackLang.Program
import StackLang.Token.Scan

/-!
# Compiling a source

A draft is a program under construction: the code that is finished, and a block of code for every
brace that is still open. A closing brace appends the innermost block to the finished code and has
the block around it push a reference, so blocks are laid out in the order of their closing braces,
ahead of the code that refers to them. The top-level code comes last.

* `Draft.token` takes one token; it refuses a token without any effect.
* `Draft.compile` takes a whole source and appends its code to what the draft holds already.
-/

namespace StackLang

/-- A block of code that was appended to the finished code, with the names known by then. -/
structure Layout where
  start : Nat
  length : Nat
  symbols : Registry
deriving DecidableEq, Repr

/-- A brace that is still open: its position, and the code before it in the block around it. -/
structure OpenBrace where
  position : Position
  before : Array Op
deriving DecidableEq, Repr

structure Draft where
  symbols : Registry := {}
  /-- The finished code. -/
  ops : Array Op := #[]
  /-- The innermost open block. -/
  current : Array Op := #[]
  /-- The open braces, innermost first. -/
  braces : List OpenBrace := []
  /-- The blocks appended since the start of the source, latest first. -/
  layouts : List Layout := []
deriving DecidableEq, Repr

namespace Draft

/-- The open blocks, outermost first. -/
def blocks (d : Draft) : List (Array Op) := (d.current :: d.braces.map OpenBrace.before).reverse

/-- The positions of the open braces, outermost first. -/
def opens (d : Draft) : List Position := (d.braces.map OpenBrace.position).reverse

/-! ## Tokens -/

def emit (d : Draft) (ops : List Op) : Draft := { d with current := d.current ++ ops }

/-- Finish a block. Targets within it count from its start until now. -/
def append (d : Draft) (block : Array Op) : Draft :=
  { d with
    ops := d.ops ++ block.map (Op.relocate d.ops.size)
    layouts := ⟨d.ops.size, block.size, d.symbols⟩ :: d.layouts }

/-- Open a block. -/
def openBlock (d : Draft) (p : Position) : Draft :=
  { d with current := #[], braces := ⟨p, d.current⟩ :: d.braces }

/-- Close the innermost block and push a reference to it in the block around it. -/
def closeBlock (d : Draft) (p : Position) : Draft × Option ParseError :=
  match d.braces with
  | [] => (d, some ⟨p, .unmatchedClose⟩)
  | brace :: braces =>
    let block := d.current.push .ret
    let around := { d with current := brace.before, braces }
    ((around.emit [.push (.code (.block d.ops.size))]).append block, none)

/-- The words with a meaning of their own, and their code. -/
def reserved : List (Bytes × List Op) :=
  [(lit "+", [.add]), (lit "-", [.arith .sub]), (lit "*", [.arith .mul]), (lit "/", [.div]),
    (lit "<", [.compare .lt]), (lit "<=", [.compare .le]), (lit ">", [.compare .gt]),
    (lit ">=", [.compare .ge]), (lit "=", [.eq]), (lit ".", [.drop]), (lit "dup", [.dup]),
    (lit "swap", [.swap]), (lit "rot", [.rot]), (lit "-rot", [.unrot]), (lit "not", [.not]),
    (lit "and", [.connect .and]), (lit "or", [.connect .or]), (lit "exec", [.exec]),
    (lit "def", [.define]), (lit "true", [.push (.bool true)]),
    (lit "false", [.push (.bool false)]), (lit "if", [.select, .exec])]

/-- The code of a loop that starts `n` instructions into its block. The condition runs before every
pass. -/
def loopCode (n : Nat) : List Op :=
  [.loopEnter, .loopCond, .loopExit (n + 5), .loopBody, .jump (n + 1)]

/-- Intern a name and emit the instruction that refers to it. -/
def emitName (d : Draft) (name : Name) (op : Handle → Op) : Draft :=
  let (symbols, h) := d.symbols.intern name
  { d with symbols }.emit [op h]

def word (d : Draft) (p : Position) (s : Bytes) : Draft × Option ParseError :=
  if s = lit "\x7b" then (d.openBlock p, none)
  else if s = lit "\x7d" then d.closeBlock p
  else if s = lit "while" then (d.emit (loopCode d.current.size), none)
  else
    match reserved.lookup s with
    | some ops => (d.emit ops, none)
    | none => (d.emitName (.ofWord s) .call, none)

/-- Take a token, or give the reason why it is refused. -/
def token (d : Draft) (t : Token) : Draft × Option ParseError :=
  match t.kind with
  | .number =>
    match Decimal.int64? t.text with
    | some n => (d.emit [.push (.int n)], none)
    | none => (d, some ⟨t.position, .invalidNumber t.text⟩)
  | .string => (d.emitName (.ofString (Literal.unquote t.text)) fun h => .push (.str h), none)
  | .symbol => (d.emitName (.ofWord t.text.tail) fun h => .push (.sym h), none)
  | .word => d.word t.position t.text
  | .other _ => (d, some ⟨t.position, .unexpectedToken t.kind⟩)

/-! ## Sources -/

/-- Take tokens up to the first that is refused. -/
def tokens (d : Draft) : List Token → Draft × Option ParseError
  | [] => (d, none)
  | t :: ts =>
    match d.token t with
    | (d, none) => d.tokens ts
    | (d, some e) => (d, some e)

/-- What is still wrong at the end of a source that has no refused token. -/
def endError? (d : Draft) (ts : Tokens) : Option ParseError :=
  match ts.unclosed, d.braces with
  | some p, _ => some ⟨p, .unterminatedString⟩
  | none, brace :: _ => some ⟨brace.position, .unclosedBlock⟩
  | none, [] => none

/-- Compile a source behind the finished code. A source that does not compile may still leave names
and finished blocks in the draft. -/
def compile (d : Draft) (src : Bytes) : Draft × Except ParseError Program :=
  let ts := tokenize src
  match { d with current := #[], braces := [], layouts := [] : Draft }.tokens ts.list with
  | (d, some e) => (d, .error e)
  | (d, none) =>
    match d.endError? ts with
    | some e => (d, .error e)
    | none =>
      let entry := d.ops.size
      let d := d.append d.current
      (d, .ok ⟨d.ops, entry⟩)

end Draft

/-- Compile a source on its own. -/
def compile (symbols : Registry) (src : Bytes) : Registry × Except ParseError Program :=
  let (d, result) := ({ symbols } : Draft).compile src
  (d.symbols, result)

/-- The source ended too early; more lines could still make it compile. -/
def incomplete (src : Bytes) : Bool :=
  match (compile {} src).2 with
  | .ok _ => false
  | .error e => e.cause.incomplete

end StackLang
