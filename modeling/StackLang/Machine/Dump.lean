import StackLang.Machine

/-!
# Dumps

A dump shows a machine: its stacks, its definitions in order of name, and its program with the entry
and the start of every block marked.
-/

namespace StackLang.Machine

/-- The starts of the blocks that an instruction or a definition refers to. -/
def blockStarts (m : Machine) : List Int :=
  m.program.ops.toList.filterMap pushed ++ m.words.entries.filterMap fun e => start? e.2
where
  start? : Code → Option Int
    | .block start => some start
    | _ => none
  pushed : Op → Option Int
    | .push (.code c) => start? c
    | _ => none

/-- The codes of the defined words, by name. -/
def codes (m : Machine) : List (Bytes × Code) :=
  m.words.entries.map fun (h, c) => (m.symbols.text h, c)

/-- The names of the defined words in bytewise order, each with the code that is found under it. -/
def definitions (m : Machine) : List (Bytes × Code) :=
  ((m.codes.map Prod.fst).mergeSort Bytes.le).filterMap fun name =>
    (m.codes.lookup name).map (name, ·)

/-- The widest column there is. -/
def columnLimit : Nat := 1000000

/-- An address in a column. A column that is too wide is complained about, and there is none. -/
def addressColumn (width address : Nat) : Bytes :=
  if width ≤ columnLimit then Decimal.padded width address
  else lit "%!(BADWIDTH)" ++ Decimal.ofNat address

def dumpOp (m : Machine) (width : Nat) (starts : List Int) (op : Op) (address : Nat) : Bytes :=
  let title :=
    if (address : Int) = m.program.entry then
      lit "# Entry @" ++ Decimal.ofNat address ++ lit "\n"
    else if starts.contains (address : Int) then
      lit "# Block @" ++ Decimal.ofNat address ++ lit "\n"
    else []
  let mark := if (address : Int) = m.pc then lit "  <-- prog" else []
  title ++ lit "  @" ++ addressColumn width address ++ lit " " ++ op.format m.symbols ++ mark ++
    lit "\n"

/-- A description of the machine. Addresses are filled up to `width`, or else to the width of the
program's length. -/
def dump (m : Machine) (width : Option Nat) : Bytes :=
  let ops := m.program.ops
  let width := width.getD (Decimal.ofNat ops.size).length
  let starts := m.blockStarts
  lit "# VM Dump\n" ++
    lit "  prog: " ++ Decimal.ofInt m.pc ++ lit "\n" ++
    lit "  stack: " ++ m.formatStack ++ lit "\n" ++
    lit "  rstack: " ++ m.formatCalls ++ lit "\n" ++
    lit "# Definitions\n" ++
    m.definitions.flatMap (fun (name, c) => lit "  " ++ name ++ lit " " ++ c.format ++ lit "\n") ++
    lit "# Program\n" ++
    ops.toList.zipIdx.flatMap fun (op, address) => m.dumpOp width starts op address

end StackLang.Machine
