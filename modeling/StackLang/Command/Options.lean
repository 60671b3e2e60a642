import StackLang.Command.Scalar
import StackLang.Text.Escaped

/-!
# Options of the command

An option has one or two dashes in front; its value follows an equals sign or is the next argument.
Options end at the first argument that is none, or behind a plain double dash. Truth values need no
value, and take one only behind an equals sign.
-/

namespace StackLang.Command

structure Options where
  inline : Bytes := []
  file : Bytes := []
  repl : Bool := false
  /-- In nanoseconds; 0 is no limit. -/
  timeout : Int := 0
  trace : Bool := false
  dump : Bool := false
  stackLimit : Int := 0
  callLimit : Int := 0
deriving DecidableEq, Repr

inductive Flag where
  | inline
  | file
  | repl
  | timeout
  | trace
  | dump
  | stackLimit
  | callLimit
deriving DecidableEq, Repr

namespace Flag

def all : List Flag := [inline, file, repl, timeout, trace, dump, stackLimit, callLimit]

def name : Flag → Bytes
  | inline => lit "i"
  | file => lit "f"
  | repl => lit "repl"
  | timeout => lit "timeout"
  | trace => lit "trace"
  | dump => lit "dump"
  | stackLimit => lit "stack-limit"
  | callLimit => lit "call-limit"

def ofName? (s : Bytes) : Option Flag := all.find? fun f => f.name = s

/-- The option is a truth value. -/
def isSwitch : Flag → Bool
  | repl | trace | dump => true
  | _ => false

/-- The options with one of them set from its text. -/
def set (o : Options) (f : Flag) (s : Bytes) : Except ScalarError Options :=
  match f with
  | inline => .ok { o with inline := s }
  | file => .ok { o with file := s }
  | repl => switch fun b => { o with repl := b }
  | trace => switch fun b => { o with trace := b }
  | dump => switch fun b => { o with dump := b }
  | timeout =>
    match duration? s with
    | some n => .ok { o with timeout := n }
    | none => .error .malformed
  | stackLimit => (integer s).map fun n => { o with stackLimit := n }
  | callLimit => (integer s).map fun n => { o with callLimit := n }
where
  switch (update : Bool → Options) : Except ScalarError Options :=
    match boolean? s with
    | some b => .ok (update b)
    | none => .error .malformed

end Flag

/-- Why there are no options to run with. -/
inductive OptionError where
  | help
  | badForm (argument : Bytes)
  | undefined (name : Bytes)
  | missing (name : Bytes)
  | invalid (f : Flag) (value : Bytes) (e : ScalarError)
deriving DecidableEq, Repr

/-- What is said about an error ahead of the usage; a call for help needs no words. -/
def OptionError.message : OptionError → Bytes
  | help => []
  | badForm argument => lit "bad flag syntax: " ++ argument ++ lit "\n"
  | undefined name => lit "flag provided but not defined: -" ++ name ++ lit "\n"
  | missing name => lit "flag needs an argument: -" ++ name ++ lit "\n"
  | invalid f value e =>
    let what := if f.isSwitch then lit "invalid boolean value " else lit "invalid value "
    let whose := if f.isSwitch then lit " for -" else lit " for flag -"
    what ++ Text.escaped value ++ whose ++ f.name ++ lit ": " ++ e.message ++ lit "\n"

namespace Options

/-- An argument without its dashes, if it is an option. -/
def stripDashes? : Bytes → Option Bytes
  | Byte.minus :: Byte.minus :: b :: r => some (b :: r)
  | [Byte.minus, Byte.minus] => none
  | Byte.minus :: b :: r => some (b :: r)
  | _ => none

def equals : UInt8 := 0x3d

/-- The name of an option, and the value behind an equals sign. The first byte is never that
sign. -/
def splitValue : Bytes → Bytes × Option Bytes
  | [] => ([], none)
  | b :: r =>
    let name := r.takeWhile (· ≠ equals)
    match r.dropWhile (· ≠ equals) with
    | [] => (b :: name, none)
    | _ :: value => (b :: name, some value)

def setFlag (o : Options) (f : Flag) (value : Bytes) : Except OptionError Options :=
  match f.set o value with
  | .ok o => .ok o
  | .error e => .error (.invalid f value e)

/-- Read the options at the start of the arguments. -/
def parseFrom (o : Options) : List Bytes → Except OptionError Options
  | [] => .ok o
  | argument :: arguments =>
    match stripDashes? argument with
    | none => .ok o
    | some body =>
      if body.head? = some Byte.minus ∨ body.head? = some equals then
        .error (.badForm argument)
      else
        let (name, value) := splitValue body
        match Flag.ofName? name with
        | none =>
          if name = lit "help" ∨ name = lit "h" then .error .help else .error (.undefined name)
        | some f =>
          match value, arguments with
          | some value, arguments => do parseFrom (← o.setFlag f value) arguments
          | none, arguments =>
            if f.isSwitch then do parseFrom (← o.setFlag f (lit "true")) arguments
            else
              match arguments with
              | [] => .error (.missing name)
              | value :: arguments => do parseFrom (← o.setFlag f value) arguments

def parse (arguments : List Bytes) : Except OptionError Options := parseFrom {} arguments

end Options

/-- How the command is called. -/
def usage : Bytes :=
  lit "Usage of gostack:\n" ++
    lit "  -call-limit int\n    \tlimit call depth\n" ++
    lit "  -dump\n    \tdump the VM after evaluation\n" ++
    lit "  -f string\n    \tevaluate the program in the given file\n" ++
    lit "  -i string\n    \tevaluate the given program text\n" ++
    lit "  -repl\n    \trun an interactive session\n" ++
    lit "  -stack-limit int\n    \tlimit value stack depth\n" ++
    lit "  -timeout duration\n    \tspecify a time limit\n" ++
    lit "  -trace\n    \tenable trace logging\n"

end StackLang.Command
