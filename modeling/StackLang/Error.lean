import StackLang.Fault
import StackLang.Output.Device

/-!
# Errors and how a task ends

A task ends by returning, perhaps with an error, or it is aborted: halted with an error of its own,
brought down by a panic, or its thread exits. `recover` makes one error of all these.
-/

namespace StackLang

/-- Why a run was stopped from outside. -/
inductive Interruption where
  | deadline
  | cancelled
deriving DecidableEq, Repr

def Interruption.message : Interruption → Bytes
  | deadline => lit "context deadline exceeded"
  | cancelled => lit "context canceled"

/-- What a panic carries when it is not an error. -/
inductive PanicValue where
  | text (s : Bytes)
  | int (n : Int)
  /-- An index outside its range. -/
  | outOfRange
deriving DecidableEq, Repr

def PanicValue.message : PanicValue → Bytes
  | text s => s
  | int n => Decimal.ofInt n
  | outOfRange => lit "runtime error: index out of range"

inductive Error where
  | fault (f : Fault)
  | output (e : OutputError)
  | interrupted (i : Interruption)
  | plain (message : Bytes)
  /-- Another error with a note in front. -/
  | noted (note : Bytes) (cause : Error)
  /-- The task `name` panicked with a value. -/
  | panicked (name : Bytes) (value : PanicValue)
  /-- The task `name` panicked with an error. -/
  | panickedWith (name : Bytes) (cause : Error)
  /-- The thread of the task `name` exited. -/
  | exited (name : Bytes)
deriving DecidableEq, Repr

namespace Error

/-- The start of a panic's message. -/
def panicNote (name : Bytes) : Bytes :=
  if name.isEmpty then lit "paniced: " else name ++ lit " paniced: "

def message : Error → Bytes
  | fault f => f.message
  | output e => e.message
  | interrupted i => i.message
  | plain message => message
  | noted note cause => note ++ cause.message
  | panicked name value => panicNote name ++ value.message
  | panickedWith name cause => panicNote name ++ cause.message
  | exited name =>
    if name.isEmpty then lit "runtime.Goexit called" else name ++ lit " called runtime.Goexit"

/-- The error that this one was made from. -/
def cause? : Error → Option Error
  | noted _ cause => some cause
  | panickedWith _ cause => some cause
  | _ => none

/-- A panic is somewhere among the error and its causes. -/
def isPanic : Error → Bool
  | panicked _ _ => true
  | panickedWith _ _ => true
  | noted _ cause => cause.isPanic
  | _ => false

/-- An exit is somewhere among the error and its causes. -/
def isExit : Error → Bool
  | exited _ => true
  | panickedWith _ cause => cause.isExit
  | noted _ cause => cause.isExit
  | _ => false

/-- A panic over an index outside its range. -/
def isOutOfRange : Error → Bool
  | panicked _ .outOfRange => true
  | _ => false

/-- The message, and below it the given stack trace if the error is a panic itself. -/
def verbose (trace : Bytes) (e : Error) : Bytes :=
  match e with
  | panicked _ _ => e.message ++ lit "\nPanic stack: " ++ trace
  | panickedWith _ _ => e.message ++ lit "\nPanic stack: " ++ trace
  | e => e.message

/-- A parsing fault that more text could mend. -/
def incomplete : Error → Bool
  | fault f => f.incomplete
  | _ => false

end Error

/-- How a task is aborted. -/
inductive Abort where
  | halt (e : Option Error)
  | panic (value : PanicValue)
  | panicWith (e : Error)
  | exit
deriving DecidableEq, Repr

/-- The error of a task called `name` that was aborted. -/
def Abort.recover (name : Bytes) : Abort → Option Error
  | halt e => e
  | panic value => some (.panicked name value)
  | panicWith e => some (.panickedWith name e)
  | exit => some (.exited name)

/-- The error of a task called `name`, however it ended. -/
def recover (name : Bytes) : Except Abort (Option Error) → Option Error
  | .ok e => e
  | .error abort => abort.recover name

end StackLang
