import StackLang.Output.Device

/-!
# Streams

A stream passes output on to a device. A device that holds back bytes itself is flushed in turn, one
that never does is left alone, and one that should be given few large writes is put behind a buffer.

An error of the device behind a buffer stays: every later call on the stream reports it again.
-/

namespace StackLang

/-- The bytes that a buffer holds back, at most `Buffer.capacity`, and the error that stopped it. -/
structure Buffer where
  held : Bytes := []
  error : Option OutputError := none
deriving DecidableEq, Repr

namespace Buffer

def capacity : Nat := 4096

def free (b : Buffer) : Nat := capacity - b.held.length

theorem free_pos {b : Buffer} (h : b.held = []) : 0 < b.free := by
  rw [free, h]
  decide

end Buffer

inductive Stream where
  /-- The device flushes. -/
  | flushing (d : Device)
  /-- The device has nothing to flush. -/
  | plain (d : Device)
  | buffered (d : Device) (b : Buffer)

namespace Stream

def device : Stream → Device
  | flushing d => d
  | plain d => d
  | buffered d _ => d

def mapDevice (f : Device → Device) : Stream → Stream
  | flushing d => flushing (f d)
  | plain d => plain (f d)
  | buffered d b => buffered (f d) b

/-! ## Buffers -/

/-- Write out what is held. Whatever the device did not take is kept, and so is everything when it
panics. -/
def flushBuffer (d : Device) (b : Buffer) : Device × Buffer × Reply :=
  match b.error with
  | some e => (d, b, .done 0 (some e))
  | none =>
    if b.held.isEmpty then (d, b, .done 0 none)
    else
      match d.write b.held with
      | (d, .panic message) => (d, b, .panic message)
      | (d, .done count error) =>
        let error := if count < b.held.length then error <|> some .short else error
        match error with
        | some e => (d, ⟨b.held.drop count, some e⟩, .done 0 (some e))
        | none => (d, {}, .done 0 none)

/-- Fill the buffer, and write it out. -/
def fillBuffer (d : Device) (b : Buffer) (s : Bytes) : Device × Buffer × Reply :=
  flushBuffer d { b with held := b.held ++ s.take b.free }

/-- Offer bytes to the device directly. One that takes none and reports nothing is offered them
again. If it goes on like that for ever, the call never ends; for want of a result, such a device
counts as short. -/
def passBuffer (d : Device) (b : Buffer) (s : Bytes) : Device × Buffer × Reply :=
  match d.insist s with
  | none => (d, { b with error := some .short }, .done 0 (some .short))
  | some ⟨(d, .panic message), _⟩ => (d, b, .panic message)
  | some ⟨(d, .done count error), _⟩ => (d, { b with error }, .done count error)

theorem flushBuffer_held {d d' : Device} {b b' : Buffer} {n : Nat}
    (h : flushBuffer d b = (d', b', .done n none)) : b'.held = [] := by
  unfold flushBuffer at h
  split at h
  · cases h
  · split at h
    · rename_i hempty
      cases h
      simpa using hempty
    · split at h
      · cases h
      · simp only at h
        split at h <;> cases h
        rfl

theorem passBuffer_count {d d' : Device} {b b' : Buffer} {s : Bytes} {n : Nat}
    (h : passBuffer d b s = (d', b', .done n none)) : 0 < n ∧ b'.held = b.held := by
  unfold passBuffer at h
  split at h
  · cases h
  · cases h
  · rename_i hended _
    cases h
    refine ⟨Nat.pos_of_ne_zero ?_, rfl⟩
    rintro rfl
    exact hended.replied rfl

/-- Write through a buffer. While the bytes do not fit, the buffer is filled and written out; with
`direct`, an empty buffer is passed by instead. `count` bytes were taken before. -/
def writeBuffer (direct : Bool) (d : Device) (b : Buffer) (s : Bytes) (count : Nat) :
    Device × Buffer × Reply :=
  match b.error with
  | some e => (d, b, .done count (some e))
  | none =>
    if s.length ≤ b.free then
      (d, { b with held := b.held ++ s }, .done (count + s.length) none)
    else if direct ∧ b.held = [] then
      match h : passBuffer d b s with
      | (d, b', .done n none) =>
        have := passBuffer_count h
        writeBuffer direct d b' (s.drop n) (count + n)
      | (d, b, .done n (some e)) => (d, b, .done (count + n) (some e))
      | (d, b, .panic message) => (d, b, .panic message)
    else
      match h : fillBuffer d b s with
      | (d, b', .done _ none) =>
        have := flushBuffer_held h
        writeBuffer direct d b' (s.drop b.free) (count + (s.take b.free).length)
      | (d, b', .done _ (some e)) => (d, b', .done (count + (s.take b.free).length) (some e))
      | (d, b', .panic message) => (d, b', .panic message)
termination_by s.length + (if b.held = [] then 0 else 1)
decreasing_by
  · obtain ⟨_, hheld⟩ := ‹0 < n ∧ b'.held = b.held›
    rw [hheld]
    simp only [List.length_drop]
    omega
  · rw [if_pos ‹b'.held = []›]
    simp only [List.length_drop]
    split
    · rename_i hheld
      have := Buffer.free_pos hheld
      omega
    · omega

/-! ## Calls -/

def onBuffer : Device × Buffer × Reply → Stream × Reply
  | (d, b, reply) => (buffered d b, reply)

def write (s : Bytes) : Stream → Stream × Reply
  | flushing d =>
    let (d, reply) := d.write s
    (flushing d, reply)
  | plain d =>
    let (d, reply) := d.write s
    (plain d, reply)
  | buffered d b => onBuffer (writeBuffer true d b s 0)

/-- Write a text as a whole: a buffer copies it piece by piece and is never passed by. -/
def writeText (s : Bytes) : Stream → Stream × Reply
  | buffered d b => onBuffer (writeBuffer false d b s 0)
  | stream => stream.write s

def flush : Stream → Stream × Reply
  | flushing d =>
    let (d, reply) := d.flush
    (flushing d, reply)
  | plain d => (plain d, .done 0 none)
  | buffered d b => onBuffer (flushBuffer d b)

end Stream

end StackLang
