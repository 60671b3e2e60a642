import StackLang.Error
import StackLang.Log.Trace
import StackLang.Machine.Step
import StackLang.Output
import StackLang.Program.Draft
import StackLang.Text.Terminal

/-!
# Sessions

A session is a machine with an output and perhaps a trace log. It evaluates one source after the
other: each is compiled behind the program so far and run from its entry. An error leaves the stacks
empty, but keeps definitions and code.

Every operation gives the session after it, and how it was aborted, if it was.
-/

namespace StackLang

structure Session where
  machine : Machine := {}
  output : Output := []
  /-- Streams that were attached earlier, in the order in which they were replaced. -/
  retired : List Stream := []
  trace : Option Trace := none

/-- How long a run may take: it may go on after `polls` instructions, and is interrupted after the
next one. -/
structure Budget where
  polls : Nat
  interruption : Interruption := .deadline

namespace Session

/-! ## Output and log -/

/-- Log a line, if there is a log. -/
def log (s : Session) (line : Bytes) : Session × Option Abort :=
  match s.trace with
  | none => (s, none)
  | some t =>
    let (t, refusal) := t.log line
    ({ s with trace := some t }, refusal.map fun message => .panic (.text message))

/-- Stop what is going on. Held output is flushed first; without an error of its own, a halt takes
over that of the flush. Nothing that goes wrong on the way changes the error. -/
def halt (s : Session) (e : Option Error) : Session × Option Abort :=
  let (output, reply) := s.output.flush
  let e :=
    match reply with
    | .done _ error => e <|> error.map .output
    | .panic _ => e
  let message := (e.map Error.message).getD (lit "<nil>")
  let (s, _) := { s with output }.log (lit "halt error: " ++ message)
  (s, some (.halt e))

/-- Go on after a call on the output. -/
def afterCall (s : Session) : Output × Reply → Session × Option Abort
  | (output, .done _ none) => ({ s with output }, none)
  | (output, .done _ (some e)) => { s with output }.halt (some (.output e))
  | (output, .panic message) => ({ s with output }, some (.panic (.text message)))

def flush (s : Session) : Session × Option Abort := s.afterCall s.output.flush

/-- Write a text at once; no output is held back across instructions. -/
def write (s : Session) (text : Bytes) : Session × Option Abort :=
  let call :=
    if Terminal.hasControl text then s.output.write (Terminal.encode text)
    else s.output.writeText text
  match s.afterCall call with
  | (s, none) => s.flush
  | aborted => aborted

/-! ## Running -/

/-- Log the instruction that is about to run, with the stacks it finds. -/
def traceOp (s : Session) (op : Op) : Session × Option Abort :=
  match s.trace with
  | none => (s, none)
  | some t =>
    let m := s.machine
    let (t, column) := t.column (op.format m.symbols)
    { s with trace := some t }.log
      (lit "exec @" ++ Decimal.ofInt m.pc ++ lit " " ++ column ++ lit " -- r:" ++ m.formatCalls ++
        lit " s:" ++ m.formatStack)

/-- Carry out the effect of an instruction. -/
def perform (s : Session) : Effect → Session × Option Abort
  | .next m => ({ s with machine := m }, none)
  | .emit text m =>
    match { s with machine := m }.write text with
    | (s, none) => ({ s with machine := s.machine.advance }, none)
    | aborted => aborted
  | .fault f m => { s with machine := m }.halt (some (.fault f))
  | .stuck => (s, some (.panic .outOfRange))

/-- Run one instruction. -/
def step (s : Session) : Session × Option Abort :=
  match s.machine.fetch? with
  | none => (s, some (.panic .outOfRange))
  | some op =>
    match s.traceOp op with
    | (s, none) => s.perform (op.run s.machine)
    | aborted => aborted

/-- Run until the end of the program. The budget is polled after every instruction. -/
def loop (interruption : Interruption) (polls : Nat) (s : Session) : Session × Option Abort :=
  if s.machine.running then
    match s.step with
    | (s, none) =>
      match polls with
      | 0 => s.halt (some (.interrupted interruption))
      | polls + 1 => loop interruption polls s
    | aborted => aborted
  else (s, none)

/-- The text in front of each line of the log. -/
def indent (s : Session) : Bytes := (s.trace.map Trace.indent).getD []

def setIndent (s : Session) (indent : Bytes) : Session :=
  { s with trace := s.trace.map fun t => { t with indent } }

/-- Run until the end of the program, with the log indented by a tab meanwhile. -/
def exec (s : Session) (budget : Budget) : Session × Option Abort :=
  let (s', abort) := (s.setIndent (s.indent ++ lit "\t")).loop budget.interruption budget.polls
  (s'.setIndent s.indent, abort)

/-! ## Evaluating -/

def setSymbols (s : Session) (symbols : Registry) : Session :=
  { s with machine := { s.machine with symbols } }

/-- Log the blocks of a source as they were laid out. -/
def announce (s : Session) : List Layout → Session × Option Abort
  | [] => (s, none)
  | l :: ls =>
    match s.log (lit "block @" ++ Decimal.ofNat l.start ++ lit " len " ++ Decimal.ofNat l.length) with
    | (s, none) => s.announce ls
    | (s, abort) => (s.setSymbols l.symbols, abort)

/-- Compile a source behind the program, and stand at its entry. -/
def load (s : Session) (src : Bytes) : Session × Option Abort :=
  let (d, result) :=
    ({ symbols := s.machine.symbols, ops := s.machine.program.ops } : Draft).compile src
  match s.announce d.layouts.reverse with
  | (s, none) =>
    let s := s.setSymbols d.symbols
    match result with
    | .error e => s.halt (some (.fault (.parsing e)))
    | .ok program => ({ s with machine := { s.machine with program, pc := program.entry } }, none)
  | aborted => aborted

/-- Run what is left of the program, then flush the output. -/
def finish (s : Session) (budget : Budget) : Session × Option Abort :=
  match s.exec budget with
  | (s, none) => s.flush
  | aborted => aborted

/-- Run what is left of the program on its own. An error of the flush after it is reported, but
nothing is halted. -/
def resume (s : Session) (budget : Budget) : Session × Option Abort :=
  match s.exec budget with
  | (s, none) =>
    match s.output.flush with
    | (output, .done _ error) => ({ s with output }, error.map fun e => .halt (some (.output e)))
    | (output, .panic message) => ({ s with output }, some (.panic (.text message)))
  | aborted => aborted

def run (s : Session) (budget : Budget) (src : Bytes) : Session × Option Abort :=
  match s.load src with
  | (s, none) => s.finish budget
  | aborted => aborted

def reset (s : Session) : Session := { s with machine := s.machine.reset }

/-- The error of an operation, as a task of that name. -/
def guarded (name : String) : Session × Option Abort → Session × Option Error
  | (s, abort) => (s, abort.bind (Abort.recover (lit name)))

/-- How a run ended. An error leaves the stacks empty. -/
def conclude (ended : Session × Option Abort) : Session × Option Error :=
  match guarded "VM" ended with
  | (s, none) => (s, none)
  | (s, some e) => (s.reset, some e)

/-- Evaluate a source. -/
def eval (s : Session) (budget : Budget) (src : Bytes) : Session × Option Error :=
  conclude (s.run budget src)

/-! ## Setting up -/

inductive Setting where
  /-- Replace the output; nothing stands for an output that is discarded. -/
  | output (stream : Option Stream)
  /-- Copy the output to one more stream. -/
  | tee (stream : Option Stream)
  | stackLimit (n : Int)
  | callLimit (n : Int)
  | trace (t : Option Trace)

/-- Whether a setting panics: an output that is replaced is flushed first. -/
def panicsOn (s : Session) : Setting → Bool
  | .output _ =>
    match s.output.flush.2 with
    | .panic _ => true
    | .done _ _ => false
  | _ => false

def apply (s : Session) : Setting → Session
  | .output stream =>
    { s with output := stream.toList, retired := s.retired ++ s.output.flush.1 }
  | .tee stream => { s with output := s.output ++ stream.toList }
  | .stackLimit n => { s with machine := { s.machine with stackLimit := n } }
  | .callLimit n => { s with machine := { s.machine with callLimit := n } }
  | .trace t => { s with trace := t }

/-- Whether a panic keeps a session from being set up. -/
def setupPanics (s : Session) : List Setting → Bool
  | [] => false
  | setting :: settings => s.panicsOn setting || (s.apply setting).setupPanics settings

/-- A session with the builtin routines defined, if no setting panics. -/
def new (symbols : Registry) (settings : List Setting) : Session :=
  let s := settings.foldl apply { machine := { symbols } }
  { s with machine := s.machine.defineBuiltins }

/-- All streams that were ever attached, in that order. -/
def streams (s : Session) : List Stream := s.retired ++ s.output

/-- The session with the records of its devices and its log cleared. -/
def clear (s : Session) : Session :=
  { s with
    output := s.output.map (Stream.mapDevice Device.clear)
    retired := s.retired.map (Stream.mapDevice Device.clear)
    trace := s.trace.map Trace.clear }

end Session

end StackLang
