import StackLang.Command

/-!
# The program

Everything the program decides is decided in `StackLang.Command`. Here its arguments, its input, the
clock and its files are read, and what it has to say is shown as soon as it is known.
-/

namespace StackLang.Command

/-! ## Console -/

def Console.put (c : Console) : IO Console := do
  let out ← IO.getStdout
  let err ← IO.getStderr
  out.write ⟨c.out.received.toArray⟩
  out.flush
  err.write ⟨c.err.device.received.toArray⟩
  err.flush
  return c.clear

/-- Show what a session has written and logged since the last time. -/
def showSession (s : Session) : IO Session := do
  discard (({} : Console).relay s).put
  return s.clear

/-! ## Clock -/

/-- Asks whether a time limit has passed, from now on. -/
def timer (o : Options) : IO (BaseIO Bool) := do
  if o.timeout = 0 then return pure false
  let start ← IO.monoNanosNow
  return do return o.timeout ≤ ((← IO.monoNanosNow) - start : Nat)

/-! ## Evaluating -/

/-- Run until the end of the program or of the time. -/
partial def runOn (late : BaseIO Bool) (s : Session) : IO (Session × Option Abort) := do
  if s.machine.running then
    match s.step with
    | (s, none) =>
      if ← late then return s.halt (some (.interrupted .deadline))
      runOn late (← showSession s)
    | aborted => return aborted
  else return (s, none)

/-- Evaluate a program. -/
def evalOn (late : BaseIO Bool) (s : Session) (src : Bytes) : IO (Session × Option Error) := do
  match s.load src with
  | (s, none) =>
    let (s', abort) ← runOn late (s.setIndent (s.indent ++ lit "\t"))
    let s' := s'.setIndent s.indent
    match abort with
    | none => return Session.conclude s'.flush
    | some abort => return Session.conclude (s', some abort)
  | aborted => return Session.conclude aborted

/-! ## Input -/

/-- Read until a line can be cut off. -/
partial def fill (input : IO.FS.Stream) (held : ByteArray) : IO ByteArray := do
  if lineCapacity ≤ held.size then return held
  let next ← input.read 1
  if next.isEmpty then return held
  let held := held ++ next
  if next.data.back? = some Byte.newline then return held
  fill input held

/-- Take lines until the input ends or the time is over. -/
partial def interact (late : BaseIO Bool) (input : IO.FS.Stream) (held : ByteArray) (r : Repl) :
    IO (Repl × Option Error) := do
  let r := { r with console := ← r.ask.console.put }
  match ← (fill input held).toBaseIO with
  | .error e => return (r, some (.plain (lit (toString e))))
  | .ok held =>
    match takeLine held.data.toList with
    | none => return (r.leave, none)
    | some (line, rest) =>
      let held : ByteArray := ⟨rest.toArray⟩
      match r.take line.text with
      | (r, none) => interact late input held r
      | (r, some src) =>
        let evaluated ← evalOn late r.session src
        match r.settle (← late) evaluated with
        | (r, none) => interact late input held r
        | ended => return ended

/-! ## Files -/

/-- The path of the history, if there is a home directory. -/
def historyPath : IO (Option String) := do
  match ← IO.getEnv "HOME" with
  | none | some "" => return none
  | some home => return some (home ++ "/" ++ History.fileName)

def readHistory : Option String → IO History
  | none => return {}
  | some path => do
    match ← (IO.FS.readBinFile path).toBaseIO with
    | .ok content => return .ofFile content.data.toList
    | .error _ => return {}

/-- Keep the history, if that is possible. -/
def writeHistory (h : History) : Option String → IO Unit
  | none => return
  | some path => do discard (IO.FS.writeBinFile path ⟨h.toFile.toArray⟩).toBaseIO

/-- What is said of a file that cannot be read. -/
def readError (path : String) : IO.Error → String
  | .noFileOrDirectory .. => "open " ++ path ++ ": no such file or directory"
  | .permissionDenied .. => "open " ++ path ++ ": permission denied"
  | .inappropriateType .. => "read " ++ path ++ ": is a directory"
  | e => "read " ++ path ++ ": " ++ toString e

def readSource (name : Bytes) : IO (Except Bytes Bytes) := do
  match String.fromUTF8? ⟨name.toArray⟩ with
  | none => return .error (lit "open " ++ name ++ lit ": no such file or directory")
  | some path =>
    match ← (IO.FS.readBinFile path).toBaseIO with
    | .ok content => return .ok content.data.toList
    | .error e => return .error (lit (readError path e))

/-! ## Tasks -/

def performSource (o : Options) (source : Except Bytes Bytes) : IO Console := do
  let late ← timer o
  let s := newSession o
  match source with
  | .error message => return (({} : Console).error message).conclude o s
  | .ok src =>
    let (c, s) := ({} : Console).settle (← evalOn late s src)
    return c.conclude o s

def performRepl (o : Options) : IO Console := do
  let late ← timer o
  let path ← historyPath
  let r : Repl := { session := newSession o, history := ← readHistory path }
  let ended ← interact late (← IO.getStdin) .empty r
  writeHistory ended.1.history path
  return Repl.conclude o ended

def perform : Task → IO UInt32
  | .advise message exitCode => do
    discard (({} : Console).warn (message ++ usage)).put
    return exitCode.toUInt32
  | .inline o => do finish (← performSource o (.ok o.inline))
  | .file o => do finish (← performSource o (← readSource o.file))
  | .repl o => do finish (← performRepl o)
where
  finish (c : Console) : IO UInt32 := do
    let c ← c.put
    return c.err.exitCode.toUInt32

end StackLang.Command

def main (arguments : List String) : IO UInt32 :=
  StackLang.Command.perform (.ofArguments (arguments.map StackLang.lit))
