import StackLang.Session

/-!
# Instructions on cells

`Op.run` takes the stacks of a machine apart, so it cannot reach past their ends. Here the
instructions are given once more for stacks and tables whose cells are reached by an index, counted
from the bottom. An index outside its range is not a fault: there is no cell, and no way to go on.
Each instruction has to make sure of its cells before it reaches for them.

* `Indexed.cell`, `Indexed.store`, `Indexed.front`, `Indexed.back`: cells and their indices.
* `Indexed.formatValue`, `Indexed.formatOp`, `Indexed.describe`: texts with parts from tables.
* `Indexed.Routine`: work on a machine that a fault or a missing cell cuts short.
* `Indexed.handlers`: the table with a routine for each instruction.
* `Indexed.step`: a step of a session, if there is every cell that it reaches for.
-/

namespace StackLang.Indexed

/-! ## Cells -/

section

variable {α : Type}

/-- The cell at an index, if there is one. -/
def cell (cells : List α) : Int → Option α
  | .ofNat n => cells[n]?
  | .negSucc _ => none

/-- The cells with another one stored at an index. -/
def store (cells : List α) (i : Int) (a : α) : Option (List α) :=
  if 0 ≤ i ∧ i < cells.length then some (cells.set i.toNat a) else none

/-- The cells in front of an index; that may be the end. -/
def front (cells : List α) (i : Int) : Option (List α) :=
  if 0 ≤ i ∧ i ≤ cells.length then some (cells.take i.toNat) else none

/-- The cells from an index on; that may be the end. -/
def back (cells : List α) (i : Int) : Option (List α) :=
  if 0 ≤ i ∧ i ≤ cells.length then some (cells.drop i.toNat) else none

theorem cell_eq_none_iff {cells : List α} {i : Int} :
    cell cells i = none ↔ ¬(0 ≤ i ∧ i < cells.length) := by
  cases i with
  | ofNat n =>
    rw [cell, List.getElem?_eq_none_iff, Int.ofNat_eq_natCast]
    omega
  | negSucc n => simp [cell]

theorem cell_of_range {cells : List α} {i : Int} (h : 0 ≤ i ∧ i < cells.length) :
    ∃ a, cell cells i = some a := by
  apply Option.ne_none_iff_exists'.1
  intro hnone
  exact cell_eq_none_iff.1 hnone h

/-- Cells counted from the top. -/
theorem cell_top (items : List α) {n : Nat} {i : Int} (hi : i = items.reverse.length - 1 - n) :
    cell items.reverse i = items[n]? := by
  rw [List.length_reverse] at hi
  by_cases hn : n < items.length
  · have hi : i = (items.length - 1 - n : Nat) := by omega
    rw [hi]
    show items.reverse[items.length - 1 - n]? = items[n]?
    rw [List.getElem?_reverse (by omega)]
    congr 1
    omega
  · rw [List.getElem?_eq_none (by omega), cell_eq_none_iff]
    omega

theorem front_top {items : List α} {n : Nat} (h : n ≤ items.length) {i : Int}
    (hi : i = items.reverse.length - n) :
    front items.reverse i = some (items.drop n).reverse := by
  rw [List.length_reverse] at hi
  rw [front, if_pos (by rw [List.length_reverse]; omega), List.reverse_drop]
  congr 2
  omega

theorem back_top {items : List α} {n : Nat} (h : n ≤ items.length) {i : Int}
    (hi : i = items.reverse.length - n) :
    back items.reverse i = some (items.take n).reverse := by
  rw [List.length_reverse] at hi
  rw [back, if_pos (by rw [List.length_reverse]; omega), List.reverse_take]
  congr 2
  omega

theorem store_top {items : List α} {n : Nat} (h : n < items.length) (a : α) {i : Int}
    (hi : i = items.reverse.length - 1 - n) :
    store items.reverse i a = some (items.set n a).reverse := by
  rw [List.length_reverse] at hi
  rw [store, if_pos (by rw [List.length_reverse]; omega)]
  congr 1
  apply List.ext_getElem (by simp)
  intro j hj _
  simp only [List.length_set, List.length_reverse] at hj
  simp only [List.getElem_set, List.getElem_reverse, List.length_set]
  by_cases hij : i.toNat = j
  · rw [if_pos hij, if_pos (by omega)]
  · rw [if_neg hij, if_neg (by omega)]

end

/-! ## Texts -/

/-- The name of a handle, if it has one. Handles count from 1. -/
def name? (r : Registry) (h : Handle) : Option (Option Name) :=
  let i : Int := h - 1
  if 0 ≤ i ∧ i < r.size then (cell r.names.toList i).map some else some none

theorem name?_eq (r : Registry) (h : Handle) : name? r h = some (r.name? h) := by
  unfold name?
  cases h with
  | zero => rfl
  | succ h =>
    have hi : ((h + 1 : Nat) : Int) - 1 = (h : Nat) := by omega
    have hname : r.name? (h + 1) = cell r.names.toList h := (Array.getElem?_toList ..).symm
    simp only [hi, hname]
    split
    · rename_i hrange
      have hrange : 0 ≤ (h : Int) ∧ (h : Int) < r.names.toList.length := hrange
      obtain ⟨n, hn⟩ := cell_of_range hrange
      simp only [hn, Option.map_some]
    · rename_i hrange
      rw [cell_eq_none_iff.2 hrange]

def text (r : Registry) (h : Handle) : Option Bytes := do
  match ← name? r h with
  | some n => return .unpack n.text
  | none => return []

theorem text_eq (r : Registry) (h : Handle) : text r h = some (r.text h) := by
  unfold text Registry.text Registry.packed
  rw [name?_eq]
  cases r.name? h <;> rfl

def kindNames : List Bytes :=
  [lit "false", lit "true", lit "int", lit "sym", lit "str", lit "code"]

/-- The place of a kind in the table of names. -/
def kindIndex : Kind → Nat
  | .bool false => 0
  | .bool true => 1
  | .int => 2
  | .sym => 3
  | .str => 4
  | .code => 5
  | .other tag => max kindNames.length tag.toNat

def kindName (k : Kind) : Option Bytes :=
  match k with
  | .other tag => some (lit "kind(" ++ Decimal.ofNat tag.toNat ++ lit ")")
  | k => cell kindNames (kindIndex k)

theorem kindName_eq (k : Kind) : kindName k = some k.name := by
  cases k with
  | bool b => cases b <;> rfl
  | _ => rfl

def formatCode : Code → Option Bytes
  | .block a => some (lit "\x7b@" ++ Decimal.ofInt a ++ lit "\x7d")
  | .builtin i =>
    if 0 ≤ i ∧ i < Builtin.all.length then do
      let b ← cell Builtin.all i
      return lit "<" ++ b.name ++ lit ">"
    else some (Code.format.invalid i)
  | .other _ a => some (Code.format.invalid a)

theorem ofIndex?_eq (i : Int) : Builtin.ofIndex? i = cell Builtin.all i := by
  cases i <;> rfl

theorem formatCode_eq (c : Code) : formatCode c = some c.format := by
  cases c with
  | block a => rfl
  | other tag a => rfl
  | builtin i =>
    rw [formatCode, Code.format, ofIndex?_eq]
    split
    · rename_i hrange
      obtain ⟨b, hb⟩ := cell_of_range hrange
      rw [hb]
      rfl
    · rename_i hrange
      rw [cell_eq_none_iff.2 hrange]

def formatValue (r : Registry) (style : Value.StringStyle) : Value → Option Bytes
  | .bool false => some (lit "false")
  | .bool true => some (lit "true")
  | .int n => some (Decimal.ofInt n.toInt)
  | .sym h => return Byte.colon :: (← text r h)
  | .str h => do
    let s ← text r h
    match style with
    | .raw => return s
    | .quoted => return Literal.quote s
  | .code c => formatCode c
  | .other tag => return lit "<" ++ (← kindName (.other tag)) ++ lit ">"

theorem formatValue_eq (r : Registry) (style : Value.StringStyle) (v : Value) :
    formatValue r style v = some (v.format r style) := by
  cases v with
  | bool b => cases b <;> rfl
  | int n => rfl
  | sym h => simp [formatValue, Value.format, text_eq]
  | str h => cases style <;> simp [formatValue, Value.format, text_eq]
  | code c => exact formatCode_eq c
  | other tag => simp [formatValue, Value.format, kindName_eq]

def formatValues (r : Registry) (vs : List Value) : Option Bytes := do
  let texts ← vs.mapM (formatValue r .quoted)
  return lit "[" ++ Bytes.join (lit " ") texts ++ lit "]"

theorem formatValues_eq (r : Registry) (vs : List Value) :
    formatValues r vs = some (Value.formatList r vs) := by
  have htexts : vs.mapM (formatValue r .quoted) = some (vs.map (Value.format r .quoted)) := by
    induction vs with
    | nil => rfl
    | cons v vs ih => simp [formatValue_eq, ih]
  simp [formatValues, Value.formatList, htexts]

def opNames : List Bytes :=
  [lit "push", lit "call", lit "return", lit "def", lit "add", lit "sub", lit "mul", lit "div",
    lit "lt", lit "lte", lit "gt", lit "gte", lit "eq", lit "drop", lit "dup", lit "swap",
    lit "rot", lit "unrot", lit "not", lit "and", lit "or", lit "exec", lit "condpop",
    lit "loopenter", lit "loopcond", lit "while", lit "loopbody", lit "jump"]

/-- The code of an instruction, which is its place in all tables of instructions. -/
def opIndex : Op → Nat
  | .push _ => 0
  | .call _ => 1
  | .ret => 2
  | .define => 3
  | .add => 4
  | .arith .sub => 5
  | .arith .mul => 6
  | .div => 7
  | .compare .lt => 8
  | .compare .le => 9
  | .compare .gt => 10
  | .compare .ge => 11
  | .eq => 12
  | .drop => 13
  | .dup => 14
  | .swap => 15
  | .rot => 16
  | .unrot => 17
  | .not => 18
  | .connect .and => 19
  | .connect .or => 20
  | .exec => 21
  | .select => 22
  | .loopEnter => 23
  | .loopCond => 24
  | .loopExit _ => 25
  | .loopBody => 26
  | .jump _ => 27
  | .other code => max opNames.length code.toNat

def opName (op : Op) : Option Bytes :=
  match op with
  | .other code => some (lit "op(" ++ Decimal.ofNat code.toNat ++ lit ")")
  | op => cell opNames (opIndex op)

theorem opName_eq (op : Op) : opName op = some op.name := by
  cases op with
  | arith f => cases f <;> rfl
  | compare f => cases f <;> rfl
  | connect f => cases f <;> rfl
  | _ => rfl

def formatOp (r : Registry) (op : Op) : Option Bytes := do
  let name ← opName op
  match op with
  | .push v => return name ++ lit " " ++ (← formatValue r .quoted v)
  | .call h => return name ++ lit " " ++ (← text r h)
  | .loopExit a => return name ++ lit " @" ++ Decimal.ofInt a
  | .jump a => return name ++ lit " @" ++ Decimal.ofInt a
  | _ => return name

theorem formatOp_eq (r : Registry) (op : Op) : formatOp r op = some (op.format r) := by
  unfold formatOp
  rw [opName_eq]
  cases op <;> simp [Op.format, formatValue_eq, text_eq]

def pair (a b : Kind) : Option Bytes := return (← kindName a) ++ lit " " ++ (← kindName b)

/-- The text of a mismatch. -/
def describe : Mismatch → Option Bytes
  | .define below top => return lit "def takes code and a symbol, got " ++ (← pair below top)
  | .add a b => return lit "+ is only defined for int and str, got " ++ (← pair a b)
  | .integers word a b => return lit word ++ lit " is only defined for int, got " ++ (← pair a b)
  | .exec kind => return lit "exec takes code, got " ++ (← kindName kind)
  | .loop cond body => return lit "while takes two code values, got " ++ (← pair cond body)
  | .noBuiltin index => return lit "no builtin #" ++ Decimal.ofInt index
  | .invalidCode c => return lit "invalid code " ++ (← formatCode c)

theorem describe_eq (e : Mismatch) : describe e = some e.message := by
  cases e <;> simp [describe, pair, Mismatch.message, Mismatch.pair, kindName_eq, formatCode_eq]

/-! ## Routines -/

/-- What cuts a routine short. -/
inductive Cut where
  | fault (f : Fault)
  /-- Something is reached for that is not there. -/
  | missing
deriving DecidableEq, Repr

/-- Work on a machine. A routine that is cut short leaves the machine as it is then. -/
abbrev Routine := EStateM Cut Machine

section

variable {α : Type}

def reach : Option α → Routine α
  | some a => pure a
  | none => throw .missing

def fail (f : Fault) : Routine α := throw (.fault f)

/-- Find a fault, if the condition holds. -/
def failIf (condition : Prop) [Decidable condition] (f : Fault) : Routine Unit :=
  if condition then fail f else pure ()

/-- A mismatch is put into words at once. -/
def mismatch (e : Mismatch) : Routine α := do
  let _ ← reach (describe e)
  fail (.mismatch e)

end

/-- The machine with other values, top first. -/
def withItems (m : Machine) (items : List Value) : Machine := { m with stack := .ofList items }

def setValues (cells : List Value) : Routine Unit := modify fun m => withItems m cells.reverse

/-- Make sure of `n` values. -/
def need (word : String) (n : Nat) : Routine Unit := do
  let m ← get
  failIf (m.values.length < n) (.underflow word n m.values.length)

/-- The value that lies `i` cells below the top. -/
def peek (i : Nat) : Routine Value := do
  let m ← get
  reach (cell m.values (m.values.length - 1 - i))

/-- Store a value. -/
def poke (i : Int) (v : Value) : Routine Unit := do
  let m ← get
  setValues (← reach (store m.values i v))

def drop (n : Nat) : Routine Unit := do
  let m ← get
  setValues (← reach (front m.values (m.values.length - n)))

def push (v : Value) : Routine Unit := do
  let m ← get
  failIf (m.stackLimit ≠ 0 ∧ m.stackLimit ≤ m.values.length) (.stackOverflow m.stackLimit)
  setValues (m.values ++ [v])

/-- Pop the operands of an instruction on two integers. -/
def popIntegers (word : String) : Routine (Int64 × Int64) := do
  need word 2
  let a ← peek 1
  let b ← peek 0
  match a, b with
  | .int a, .int b =>
    drop 2
    return (a, b)
  | a, b => mismatch (.integers word a.kind b.kind)

def pushCall (a : Int) : Routine Unit := do
  let m ← get
  let calls := m.calls.items.reverse
  failIf (m.callLimit ≠ 0 ∧ m.callLimit ≤ calls.length) (.callOverflow m.callLimit)
  set { m with calls := .ofList (calls ++ [a]).reverse }

def popCall : Routine Int := do
  let m ← get
  let calls := m.calls.items.reverse
  let i : Int := calls.length - 1
  failIf (i < 0) (.noCall m.pc)
  let a ← reach (cell calls i)
  let rest ← reach (front calls i)
  set { m with calls := .ofList rest.reverse }
  return a

def innermost : Routine Loop := do
  let m ← get
  let loops := m.loops.reverse
  let i : Int := loops.length - 1
  failIf (i < 0) (.noLoop m.pc)
  reach (cell loops i)

/-- Divide, toward zero. There is no quotient by zero. -/
def quotient (a b : Int64) : Option Int64 := if b = 0 then none else some (a / b)

/-! ## Instructions

A routine for an instruction gives the text that is to be written, if there is one. The machine goes
on behind the instruction when that is done. -/

def goTo (a : Int) : Routine (Option Bytes) := do
  modify fun m => { m with pc := a }
  return none

/-- Go on behind the instruction. -/
def done : Routine (Option Bytes) := do
  modify Machine.advance
  return none

def runBuiltin : Builtin → Routine (Option Bytes)
  | .print => do
    need "print" 1
    let v ← peek 0
    let m ← get
    return some (← reach (formatValue m.symbols .raw v))
  | .nl => return some (lit "\n")
  | .stack => do
    let m ← get
    return some (← reach (formatValues m.symbols m.values))

def dispatch (c : Code) : Routine (Option Bytes) :=
  match c with
  | .block start => do
    let m ← get
    pushCall m.pc
    goTo start
  | .builtin i =>
    if i < 0 ∨ Builtin.all.length ≤ i then mismatch (.noBuiltin i)
    else do runBuiltin (← reach (cell Builtin.all i))
  | .other _ _ => mismatch (.invalidCode c)

def runPush (v : Value) : Routine (Option Bytes) := do
  push v
  done

def runCall (h : Handle) : Routine (Option Bytes) := do
  let m ← get
  match m.words.find? h with
  | some c => dispatch c
  | none => fail (.unimplemented (← reach (text m.symbols h)))

def runReturn : Routine (Option Bytes) := do
  let a ← popCall
  let m ← get
  goTo (m.behind a)

def runDefine : Routine (Option Bytes) := do
  need "def" 2
  let s ← peek 0
  let c ← peek 1
  match c, s with
  | .code c, .sym h =>
    drop 2
    modify fun m => { m with words := m.words.define h c }
    done
  | c, s => mismatch (.define c.kind s.kind)

def runAdd : Routine (Option Bytes) := do
  need "+" 2
  let a ← peek 1
  let b ← peek 0
  match a, b with
  | .int a, .int b =>
    drop 2
    runPush (.int (a + b))
  | .str a, .str b =>
    drop 2
    let m ← get
    let s := (← reach (text m.symbols a)) ++ (← reach (text m.symbols b))
    let (symbols, h) := m.symbols.intern (.ofString s)
    set { m with symbols }
    runPush (.str h)
  | a, b => mismatch (.add a.kind b.kind)

/-- An instruction on two integers that cannot fail any more. -/
def runIntegers (word : String) (f : Int64 → Int64 → Value) : Routine (Option Bytes) := do
  let (a, b) ← popIntegers word
  runPush (f a b)

def runDiv : Routine (Option Bytes) := do
  let (a, b) ← popIntegers "/"
  failIf (b = 0) (.divideByZero a)
  runPush (.int (← reach (quotient a b)))

/-- An instruction on any two values that cannot fail any more. -/
def runBinary (word : String) (f : Value → Value → Value) : Routine (Option Bytes) := do
  need word 2
  let a ← peek 1
  let b ← peek 0
  drop 2
  runPush (f a b)

def runConnect (f : Connective) : Routine (Option Bytes) :=
  runBinary f.word fun a b => .bool (f.apply a.truth b.truth)

def runDrop : Routine (Option Bytes) := do
  need "." 1
  drop 1
  done

def runDup : Routine (Option Bytes) := do
  need "dup" 1
  runPush (← peek 0)

def runSwap : Routine (Option Bytes) := do
  need "swap" 2
  let m ← get
  let i : Int := m.values.length - 1
  let a ← reach (cell m.values (i - 1))
  let b ← reach (cell m.values i)
  poke (i - 1) b
  poke i a
  done

/-- Move the top three values around. -/
def runTurn (word : String) (turn : Value → Value → Value → Value × Value × Value) :
    Routine (Option Bytes) := do
  need word 3
  let m ← get
  let i : Int := m.values.length - 3
  let s ← reach (back m.values i)
  let (a, b, c) := turn (← reach (cell s 0)) (← reach (cell s 1)) (← reach (cell s 2))
  poke i a
  poke (i + 1) b
  poke (i + 2) c
  done

def runNot : Routine (Option Bytes) := do
  need "not" 1
  let m ← get
  let i : Int := m.values.length - 1
  let v ← reach (cell m.values i)
  poke i (.bool (!v.truth))
  done

def runExec : Routine (Option Bytes) := do
  need "exec" 1
  match ← peek 0 with
  | .code c =>
    drop 1
    dispatch c
  | _ => mismatch (.exec (← peek 0).kind)

def runSelect : Routine (Option Bytes) := do
  need "if" 3
  let m ← get
  let i : Int := m.values.length - 3
  let s ← reach (back m.values i)
  let flag ← reach (cell s 0)
  poke i (← reach (cell s (if flag.truth then 1 else 2)))
  let m ← get
  setValues (← reach (front m.values (i + 1)))
  done

def runLoopEnter : Routine (Option Bytes) := do
  need "while" 2
  let c ← peek 1
  let b ← peek 0
  match c, b with
  | .code c, .code b =>
    drop 2
    modify fun m => { m with loops := ⟨c, b⟩ :: m.loops }
    done
  | c, b => mismatch (.loop c.kind b.kind)

def runLoopExit (target : Int) : Routine (Option Bytes) := do
  let _ ← innermost
  need "while" 1
  let flag ← peek 0
  drop 1
  if flag.truth then done
  else
    let m ← get
    let rest ← reach (front m.loops.reverse (m.loops.reverse.length - 1))
    set { m with loops := rest.reverse }
    goTo target

/-! ### Dispatching -/

/-- The value that an instruction pushes. -/
def valueOf : Op → Value
  | .push v => v
  | _ => .bool false

/-- The word that an instruction calls. -/
def wordOf : Op → Handle
  | .call h => h
  | _ => 0

/-- The address that an instruction may go on at. -/
def addressOf (op : Op) : Int := op.target?.getD 0

/-- A routine for each instruction, at the place of its code. -/
def handlers : List (Op → Routine (Option Bytes)) :=
  [fun op => runPush (valueOf op), fun op => runCall (wordOf op), fun _ => runReturn,
    fun _ => runDefine, fun _ => runAdd, fun _ => runIntegers "-" fun a b => .int (a - b),
    fun _ => runIntegers "*" fun a b => .int (a * b), fun _ => runDiv,
    fun _ => runIntegers "<" fun a b => .bool (a < b),
    fun _ => runIntegers "<=" fun a b => .bool (a ≤ b),
    fun _ => runIntegers ">" fun a b => .bool (b < a),
    fun _ => runIntegers ">=" fun a b => .bool (b ≤ a),
    fun _ => runBinary "=" fun a b => .bool (a = b), fun _ => runDrop, fun _ => runDup,
    fun _ => runSwap, fun _ => runTurn "rot" fun a b c => (b, c, a),
    fun _ => runTurn "-rot" fun a b c => (c, a, b), fun _ => runNot, fun _ => runConnect .and,
    fun _ => runConnect .or, fun _ => runExec, fun _ => runSelect, fun _ => runLoopEnter,
    fun _ => do dispatch (← innermost).cond, fun op => runLoopExit (addressOf op),
    fun _ => do dispatch (← innermost).body, fun op => goTo (addressOf op)]

def run (op : Op) : Routine (Option Bytes) := do
  let handler ← reach (cell handlers (opIndex op))
  handler op

/-- The effect of a routine. There is none if it misses something. -/
def effect? : EStateM.Result Cut Machine (Option Bytes) → Option Effect
  | .ok none m => some (.next m)
  | .ok (some text) m => some (.emit text m)
  | .error (.fault f) m => some (.fault f m)
  | .error .missing _ => none

/-! ## Sessions -/

/-- Log the instruction that is about to run, with the stacks it finds. -/
def traceOp (s : Session) (op : Op) : Option (Session × Option Abort) :=
  match s.trace with
  | none => some (s, none)
  | some t => do
    let m := s.machine
    let (t, column) := t.column (← formatOp m.symbols op)
    let stack ← formatValues m.symbols m.values
    return { s with trace := some t }.log
      (lit "exec @" ++ Decimal.ofInt m.pc ++ lit " " ++ column ++ lit " -- r:" ++ m.formatCalls ++
        lit " s:" ++ stack)

/-- Run one instruction. -/
def step (s : Session) : Option (Session × Option Abort) := do
  let op ← cell s.machine.program.ops.toList s.machine.pc
  match ← traceOp s op with
  | (s, none) => return s.perform (← effect? ((run op).run s.machine))
  | aborted => return aborted

end StackLang.Indexed
