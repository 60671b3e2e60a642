import StackLang.Command.Directory
import StackLang.Command.History
import StackLang.Command.Options
import StackLang.Log.Report
import StackLang.Machine.Dump
import StackLang.Session
import StackLang.Text.Blank

/-!
# The command

The command evaluates a program from its arguments or from a file, or reads programs from its input
one after the other. All it does is a function of its arguments, its input and the files it finds.
-/

namespace StackLang

/-- A run that no time limit will end. -/
def Budget.unlimited : Budget where
  polls := 0x4000000000000000

namespace Command

/-! ## Console -/

/-- What the command has written so far, and its exit code. -/
structure Console where
  out : Device := {}
  err : Report := {}

namespace Console

def print (c : Console) (s : Bytes) : Console := { c with out := (c.out.write s).1 }

def warn (c : Console) (s : Bytes) : Console :=
  { c with err := { c.err with device := (c.err.device.write s).1 } }

def error (c : Console) (message : Bytes) : Console := { c with err := (c.err.error message).1 }

/-- The console with its record cleared, though not the exit code. -/
def clear (c : Console) : Console :=
  { out := c.out.clear, err := { c.err with device := c.err.device.clear } }

/-- Show what a session has written and logged. -/
def relay (c : Console) (s : Session) : Console :=
  let c := c.print (s.streams.flatMap fun stream => stream.device.received)
  match s.trace with
  | none => c
  | some t => t.lines.foldl (fun c line => c.warn (Report.line [] line)) c

end Console

/-! ## Evaluating -/

def newSession (o : Options) : Session :=
  .new {} [.output (some (.buffered {} {})), .stackLimit o.stackLimit, .callLimit o.callLimit,
    .trace (if o.trace then some {} else none)]

/-- A negative time limit has passed before anything is run. -/
def expired (o : Options) : Bool := o.timeout < 0

def budget (o : Options) : Budget := if expired o then { polls := 0 } else .unlimited

/-- What is shown for the stack that a program leaves. -/
def stackLine (s : Session) : Bytes := s.machine.formatStack ++ lit "\n"

/-- Report the error of an evaluation, or show the stack it leaves. -/
def Console.settle (c : Console) : Session × Option Error → Console × Session
  | (s, some e) => ((c.relay s).error e.message, s.clear)
  | (s, none) => ((c.relay s).print (stackLine s), s.clear)

/-! ## The interactive session -/

/-- Standard input: a text, or one that cannot be read. -/
inductive Input where
  | text (s : Bytes)
  | broken (message : Bytes)
deriving DecidableEq, Repr

structure Repl where
  session : Session
  history : History := {}
  /-- The lines of a program under way. -/
  pending : Bytes := []
  console : Console := {}

namespace Repl

/-- Show how an evaluation went. An error ends the session only if its time is over. -/
def settle (r : Repl) (late : Bool) : Session × Option Error → Repl × Option Error
  | (session, none) =>
    let console := (r.console.relay session).print (stackLine session)
    ({ r with session := session.clear, console }, none)
  | (session, some e) =>
    let console := (r.console.relay session).warn (lit "error: " ++ e.message ++ lit "\n")
    ({ r with session := session.clear, console },
      if late then some (.interrupted .deadline) else none)

/-- Take a line, and give the program that it completes. A blank program is passed over. -/
def take (r : Repl) (text : Bytes) : Repl × Option Bytes :=
  match readLine r.pending text with
  | .more pending => ({ r with pending }, none)
  | .program src =>
    let r := { r with pending := [] }
    if Text.isBlank src then (r, none)
    else ({ r with history := r.history.add src }, some src)

/-- Take a line, and evaluate the program that it completes. -/
def line (r : Repl) (o : Options) (text : Bytes) : Repl × Option Error :=
  match r.take text with
  | (r, none) => (r, none)
  | (r, some src) => r.settle (expired o) (r.session.eval (budget o) src)

def ask (r : Repl) : Repl := { r with console := r.console.print (prompt r.pending) }

/-- Leave the line of the prompt at the end of the input. -/
def leave (r : Repl) : Repl := { r with console := r.console.print (lit "\n") }

/-- Take lines until the input ends or the time is over. -/
def lines (r : Repl) (o : Options) : List Bytes → Repl × Option Error
  | [] => (r.ask.leave, none)
  | text :: texts =>
    match r.ask.line o text with
    | (r, none) => r.lines o texts
    | ended => ended

def run (r : Repl) (o : Options) : Input → Repl × Option Error
  | .text s => r.lines o ((linesOf s).map Line.text)
  | .broken message => (r.ask, some (.plain message))

end Repl

/-! ## Running the command -/

/-- What the command finds. -/
structure Environment where
  arguments : List Bytes
  input : Input
  directory : Directory
  /-- There is a home directory, which is the working directory. -/
  home : Bool

/-- The directories at the root of a system. -/
def systemFolders : List String :=
  ["bin", "boot", "dev", "etc", "home", "lib", "media", "mnt", "opt", "proc", "root", "run", "sbin",
    "srv", "sys", "tmp", "usr", "var"]

/-- The files that every system has, the standard input among them. -/
def systemFiles (input : Input) : Files :=
  let standard : Bytes × Bytes :=
    match input with
    | .text s => (lit "dev/stdin", s)
    | .broken _ => (lit "dev/stdin/", [])
  (lit "dev/null", []) :: standard :: systemFolders.map fun name => (lit (name ++ "/"), [])

/-- What the command leaves. -/
structure Outcome where
  out : Bytes
  err : Bytes
  exitCode : Nat
  directory : Directory

/-- What the options ask for. -/
inductive Task where
  /-- Tell how the command is called, below a message. -/
  | advise (message : Bytes) (exitCode : Nat)
  | repl (o : Options)
  | inline (o : Options)
  | file (o : Options)
deriving DecidableEq, Repr

def Task.ofArguments (arguments : List Bytes) : Task :=
  match Options.parse arguments with
  | .error e => .advise e.message (if e = .help then 0 else 2)
  | .ok o =>
    if o.repl then .repl o
    else if !o.file.isEmpty then .file o
    else if !o.inline.isEmpty then .inline o
    else .advise [] 2

/-- What is left to write once all is evaluated. -/
def Console.conclude (c : Console) (o : Options) (s : Session) : Console :=
  if o.dump then c.warn (s.machine.dump none) else c

/-- The error that ended an interactive session, if one did, is reported. -/
def Repl.conclude (o : Options) : Repl × Option Error → Console
  | (r, none) => r.console.conclude o r.session
  | (r, some e) => (r.console.error e.message).conclude o r.session

/-- Evaluate a program, or report why it cannot be read. -/
def runSource (o : Options) : Except Bytes Bytes → Console
  | .error message => (({} : Console).error message).conclude o (newSession o)
  | .ok src =>
    let (c, s) := ({} : Console).settle ((newSession o).eval (budget o) src)
    c.conclude o s

def run (env : Environment) : Outcome :=
  match Task.ofArguments env.arguments with
  | .advise message exitCode => ⟨[], message ++ usage, exitCode, env.directory⟩
  | .inline o => outcome (runSource o (.ok o.inline)) env.directory
  | .file o => outcome (runSource o (env.directory.read (systemFiles env.input) o.file)) env.directory
  | .repl o =>
    let name := lit History.fileName
    let stored := if env.home then (env.directory.find? name).getD [] else []
    let ended := ({ session := newSession o, history := .ofFile stored } : Repl).run o env.input
    outcome (Repl.conclude o ended)
      (if env.home then env.directory.write name ended.1.history.toFile else env.directory)
where
  outcome (c : Console) (directory : Directory) : Outcome :=
    ⟨c.out.received, c.err.device.received, c.err.exitCode, directory⟩

end Command

end StackLang
