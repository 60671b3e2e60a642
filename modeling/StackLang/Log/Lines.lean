import StackLang.Text.Bytes

/-!
# Logging by lines

A line log takes bytes in chunks of any size and logs a line whenever one is complete. Flushing logs
the rest, if there is any.

The function behind the log may refuse a line by a panic. That line is lost, but the newline that
ended it is still there, and so is all that follows.
-/

namespace StackLang

structure LineLog where
  /-- The message of the panic on a line, if it is refused. -/
  refuses : Bytes → Option Bytes := fun _ => none
  /-- The bytes that no line was made of yet. -/
  held : Bytes := []

namespace LineLog

/-- How a call ends: the log as it is left, the lines that were logged, without their newlines, and
the panic of the line that was refused, if one was. -/
structure Result where
  log : LineLog
  lines : List Bytes
  panic : Option Bytes

def Result.cons (line : Bytes) (r : Result) : Result := { r with lines := line :: r.lines }

theorem rest_length {s rest : Bytes} {b : UInt8}
    (h : s.dropWhile (· != Byte.newline) = b :: rest) : rest.length < s.length := by
  have hlength := (List.dropWhile_suffix (l := s) (· != Byte.newline)).length_le
  rw [h, List.length_cons] at hlength
  exact hlength

/-- Log the lines that are complete; with `all`, what is left behind them counts as a line too. -/
def drain (l : LineLog) (all : Bool) : Result :=
  if l.held.isEmpty then ⟨l, [], none⟩
  else
    let line := l.held.takeWhile (· != Byte.newline)
    match h : l.held.dropWhile (· != Byte.newline) with
    | newline :: rest =>
      match l.refuses line with
      | some message => ⟨{ l with held := newline :: rest }, [], some message⟩
      | none =>
        have := rest_length h
        ({ l with held := rest }.drain all).cons line
    | [] =>
      if all then
        match l.refuses line with
        | some message => ⟨{ l with held := [] }, [], some message⟩
        | none => ⟨{ l with held := [] }, [line], none⟩
      else ⟨l, [], none⟩
termination_by l.held.length

/-- Take a chunk. -/
def write (l : LineLog) (chunk : Bytes) : Result := { l with held := l.held ++ chunk }.drain false

def flush (l : LineLog) : Result := l.drain true

def close (l : LineLog) : Result := l.flush

end LineLog

end StackLang
