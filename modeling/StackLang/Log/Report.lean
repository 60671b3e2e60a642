import StackLang.Output.Device
import StackLang.Text.Template

/-!
# Reports

A report writes messages with a level, one line or more for each, and keeps an exit code for the
command: 1 once an error was reported, 2 once a message could not be written.

A message is put together in a buffer, and the device is offered all of it at once. Whatever the
device did with it, the buffer is empty again when the call is over; only a panic leaves it as it
was.
-/

namespace StackLang

structure Report where
  device : Device := {}
  /-- The buffer that messages are put together in. -/
  held : Bytes := []
  exitCode : Nat := 0

namespace Report

/-- A level in front of a message. -/
def heading (level : Bytes) : Bytes := if level.isEmpty then [] else level ++ lit ": "

/-- A text with a newline at its end, unless it is empty. -/
def endLine (s : Bytes) : Bytes :=
  match s.getLast? with
  | none => s
  | some b => if b = Byte.newline then s else s ++ [Byte.newline]

/-- The level, the message, and a newline unless there is one. -/
def line (level message : Bytes) : Bytes := endLine (heading level ++ message)

/-- Offer the buffer to the device, unless it is empty. What is not taken stays in it, and all of it
does in a panic. -/
def drain (r : Report) : Report × Reply :=
  if r.held.isEmpty then (r, .done 0 none)
  else
    match r.device.write r.held with
    | (device, .done count error) =>
      ({ r with device, held := r.held.drop count },
        .done count (if count < r.held.length then error <|> some .short else error))
    | (device, .panic message) => ({ r with device }, .panic message)

/-- Write a message. What is left of it is dropped. -/
def put (r : Report) (level message : Bytes) : Report × Reply :=
  match { r with held := endLine (r.held ++ heading level ++ message) }.drain with
  | (r, .done count error) => ({ r with held := [] }, .done count error)
  | (r, .panic message) => (r, .panic message)

/-- Report a message, or give the panic of the device. -/
def message (r : Report) (level message : Bytes) : Report × Option Bytes :=
  match r.put level message with
  | (r, .done _ none) => (r, none)
  | (r, .done _ (some _)) => ({ r with exitCode := 2 }, none)
  | (r, .panic message) => (r, some message)

def error (r : Report) (message : Bytes) : Report × Option Bytes :=
  match r.put (lit "ERROR") message with
  | (r, .done _ none) => (if r.exitCode = 0 then { r with exitCode := 1 } else r, none)
  | (r, .done _ (some _)) => ({ r with exitCode := 2 }, none)
  | (r, .panic message) => (r, some message)

/-- Report an error, if there is one. -/
def errorIf (r : Report) : Option Bytes → Report × Option Bytes
  | none => (r, none)
  | some message => r.error message

/-! ## Templates -/

def messagef (r : Report) (level template : Bytes) (args : List Template.Argument) :
    Report × Option Bytes :=
  r.message level (Template.fill template args)

/-- The function that reports messages of one level. -/
def leveledf (level : Bytes) (r : Report) (template : Bytes) (args : List Template.Argument) :
    Report × Option Bytes :=
  r.messagef level template args

def errorf (r : Report) (template : Bytes) (args : List Template.Argument) :
    Report × Option Bytes :=
  r.error (Template.fill template args)

end Report

end StackLang
