import StackLang.Text.Bytes

/-!
# Trace logs

A trace log takes lines. The function behind it may refuse a line by a panic; such a line is not
logged. What the function does may change from call to call.
-/

namespace StackLang

structure Trace where
  /-- The message of the panic on a line, if it is refused. Calls are counted from 1. -/
  refuses : (call : Nat) → (line : Bytes) → Option Bytes := fun _ _ => none
  /-- The calls so far. -/
  calls : Nat := 0
  /-- The lines logged, since this record was last cleared. -/
  lines : Array Bytes := #[]
  /-- What each line starts with. -/
  indent : Bytes := []
  /-- The width of the column of instructions. -/
  width : Nat := 0

namespace Trace

/-- Log a line, or give the panic. -/
def log (t : Trace) (line : Bytes) : Trace × Option Bytes :=
  let line := t.indent ++ line
  let t := { t with calls := t.calls + 1 }
  match t.refuses t.calls line with
  | some message => (t, some message)
  | none => ({ t with lines := t.lines.push line }, none)

/-- A text in a column as wide as the text before it was; the column grows with its texts. -/
def column (t : Trace) (s : Bytes) : Trace × Bytes :=
  if s.length < t.width then (t, s ++ Bytes.spaces (t.width - s.length))
  else ({ t with width := s.length }, s)

/-- The log with its record cleared. -/
def clear (t : Trace) : Trace := { t with lines := #[] }

end Trace

end StackLang
