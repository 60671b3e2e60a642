import StackLang.Text.Bytes

/-!
# Devices

A device is where output ends up. It takes bytes and may be told to flush, and it may misbehave: it
can take only a part, report an error, or give up altogether. What it does on a call depends on how
many calls of that sort came before.
-/

namespace StackLang

/-- An error that a device reports. -/
inductive OutputError where
  | failed (message : Bytes)
  /-- Fewer bytes were taken than offered, without an error. -/
  | short
deriving DecidableEq, Repr

def OutputError.message : OutputError → Bytes
  | failed message => message
  | short => lit "short write"

/-- How a call on a device or stream ends: with a count of bytes taken and perhaps an error, or with
a panic. -/
inductive Reply where
  | done (count : Nat) (error : Option OutputError)
  | panic (message : Bytes)
deriving DecidableEq, Repr

/-- What a device has in store for its calls, which are counted from 1. -/
structure Behavior where
  /-- The reply to a write, by the number of the call and of the bytes offered. -/
  write : (call offered : Nat) → Reply
  /-- The reply to a flush, by the number of the call. -/
  flush : (call : Nat) → Reply

namespace Behavior

/-- Takes all it is offered. -/
def faithful : Behavior where
  write _ offered := .done offered none
  flush _ := .done 0 none

end Behavior

/-- A call that a device saw. -/
inductive Call where
  | write (offered : Bytes) (taken : Nat)
  | flush
deriving DecidableEq, Repr

structure Device where
  behavior : Behavior := .faithful
  writes : Nat := 0
  flushes : Nat := 0
  /-- The calls it saw since this record was last cleared, latest first. -/
  record : List Call := []

namespace Device

/-- The bytes that were taken in a sequence of calls. -/
def taken : List Call → Bytes
  | [] => []
  | .write offered n :: calls => offered.take n ++ taken calls
  | .flush :: calls => taken calls

/-- The calls since the record was last cleared, in order. -/
def calls (d : Device) : List Call := d.record.reverse

/-- The bytes taken since then. -/
def received (d : Device) : Bytes := taken d.calls

/-- Offer bytes. A device takes between none and all of them: a count that is larger than what was
offered stands for all. -/
def write (d : Device) (s : Bytes) : Device × Reply :=
  let reply :=
    match d.behavior.write (d.writes + 1) s.length with
    | .done count error => .done (min count s.length) error
    | .panic message => .panic message
  let count :=
    match reply with
    | .done count _ => count
    | .panic _ => 0
  ({ d with writes := d.writes + 1, record := .write s count :: d.record }, reply)

def flush (d : Device) : Device × Reply :=
  ({ d with flushes := d.flushes + 1, record := .flush :: d.record },
    d.behavior.flush (d.flushes + 1))

/-! ## Idle calls -/

/-- The device `d'` is what a call makes of `d` at which it takes none of the bytes and reports
nothing. -/
def Idles (s : Bytes) (d' d : Device) : Prop := d.write s = (d', .done 0 none)

/-- Bytes are offered again and again, and `ended` is what comes of the first call at which the
device takes some of them or reports something. -/
inductive Ends (s : Bytes) : Device → Device × Reply → Prop
  | now {d : Device} (h : (d.write s).2 ≠ .done 0 none) : Ends s d (d.write s)
  | later {d d' : Device} {ended : Device × Reply} (h : Idles s d' d) (hended : Ends s d' ended) :
    Ends s d ended

/-- Offer bytes again and again, until the device takes some of them or reports something. There is
no result if it never does. -/
def insist (s : Bytes) : (d : Device) → Option { ended // Ends s d ended } :=
  WellFounded.partialExtrinsicFix (Idles s) fun d insist =>
    if h : (d.write s).2 = .done 0 none then
      have hidle : Idles s (d.write s).1 d := Prod.ext rfl h
      (insist (d.write s).1 hidle).map fun ended => ⟨ended.1, .later hidle ended.2⟩
    else some ⟨d.write s, .now h⟩

namespace Ends

variable {s : Bytes} {d : Device} {ended : Device × Reply} (h : Ends s d ended)

include h

theorem replied : ended.2 ≠ .done 0 none := by
  induction h with
  | now h => exact h
  | later _ _ ih => exact ih

theorem acc : Acc (Idles s) d := by
  induction h with
  | now h =>
    refine ⟨_, fun d' hidle => ?_⟩
    exact absurd (congrArg Prod.snd hidle) h
  | later h _ ih =>
    refine ⟨_, fun d' hidle => ?_⟩
    rw [Idles, h] at hidle
    cases hidle
    exact ih

theorem insist_eq : insist s d = some ⟨ended, h⟩ := by
  induction h with
  | now h =>
    rw [insist, WellFounded.partialExtrinsicFix_eq_apply_of_acc (Ends.now h).acc]
    exact dif_neg h
  | @later d d' ended h hended ih =>
    rw [insist, WellFounded.partialExtrinsicFix_eq_apply_of_acc (Ends.later h hended).acc]
    obtain rfl : (d.write s).1 = d' := congrArg Prod.fst h
    rw [dif_pos (congrArg Prod.snd h)]
    exact congrArg (Option.map _) ih

end Ends

/-- The device with its record cleared. -/
def clear (d : Device) : Device := { d with record := [] }

end Device

end StackLang
