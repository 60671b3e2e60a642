import Mathlib
import StackLang.Proofs.Effects

/-!
# What devices receive

Devices may report errors at any call, as long as they report one whenever they take less than they
are offered. Whatever they do, each of them gets an initial part of the text that a run writes, and
all of it if the run ends well. No stream gets a byte twice or out of order: a write stops at the
first stream that fails, a flush reaches all of them, and a buffer that has failed passes nothing on
any more.

* `Behavior.Lawful`: devices that report an error if they take too little.
* `Stream.due`: what a device got, and what its buffer will still pass on.
* `Stream.Behind`, `Stream.Abreast`: a stream that has, of a text, no more than an initial part, and
  one that has all of it.
* `Session.texts`, `Session.written`: what the instructions of a run write.
* `Session.eval_receives`: what the devices of a new session get from an evaluation.
-/

namespace StackLang

/-! ## Devices -/

/-- Devices of this behavior report an error if they take less than they are offered. -/
def Behavior.Lawful (b : Behavior) : Prop :=
  ∀ call offered count, b.write call offered = .done count none → offered ≤ count

/-- The number of bytes that were taken. -/
def Reply.count : Reply → Nat
  | done count _ => count
  | panic _ => 0

namespace Device

theorem write_received (d : Device) (s : Bytes) :
    (d.write s).1.received = d.received ++ s.take (d.write s).2.count := by
  cases h : d.behavior.write (d.writes + 1) s.length with
  | done count error => simp [write, h, received, calls, taken_append, taken, Reply.count]
  | panic message => simp [write, h, received, calls, taken_append, taken, Reply.count]

theorem Ends.received {d : Device} {s : Bytes} {ended : Device × Reply} (h : Ends s d ended) :
    ended.1.received = d.received ++ s.take ended.2.count := by
  induction h with
  | @now d _ => exact d.write_received s
  | @later d d' _ hidle _ ih =>
    have hreceived := d.write_received s
    rw [hidle, Reply.count, List.take_zero, List.append_nil] at hreceived
    rw [ih, hreceived]

theorem write_whole {d d' : Device} (h : d.behavior.Lawful) {s : Bytes} {n : Nat}
    (hwrite : d.write s = (d', .done n none)) : n = s.length := by
  have hreply := congrArg Prod.snd hwrite
  simp only [write] at hreply
  cases hanswer : d.behavior.write (d.writes + 1) s.length with
  | done count error =>
    rw [hanswer] at hreply
    simp only [Reply.done.injEq] at hreply
    obtain ⟨hmin, rfl⟩ := hreply
    have hle := h _ _ _ hanswer
    omega
  | panic message =>
    rw [hanswer] at hreply
    cases hreply

theorem flush_received (d : Device) : d.flush.1.received = d.received := by
  simp [flush, received, calls, taken_append, taken]

end Device

/-! ## Streams -/

/-- What a buffer will still pass on: nothing, once it has failed. -/
def Buffer.due (b : Buffer) : Bytes :=
  match b.error with
  | none => b.held
  | some _ => []

namespace Stream

/-- What the device of the stream got, and what a buffer will still pass on. -/
def due (s : Stream) : Bytes := s.received ++ s.buffer.due

theorem due_of_error {s : Stream} (h : s.buffer.error = none) : s.due = s.content := by
  rw [due, content, Buffer.due, h]

theorem received_prefix_due (s : Stream) : s.received <+: s.due := List.prefix_append _ _

/-- A text is offered to a stream that has not failed. The device gets an initial part of it, and
without an error nothing is missing. -/
structure Takes (s : Stream) (text : Bytes) (called : Stream × Reply) : Prop where
  grows : s.received <+: called.1.received
  due : called.1.due <+: s.content ++ text
  whole : ∀ n, called.2 = .done n none →
    called.1.buffer.error = none ∧ called.1.content = s.content ++ text

/-- A stream is flushed. Without an error, nothing is held back any more. -/
structure Flushes (s : Stream) (called : Stream × Reply) : Prop where
  grows : s.received <+: called.1.received
  due : called.1.due <+: s.due
  whole : ∀ n, called.2 = .done n none → called.1.buffer = {} ∧ called.1.received = s.content

section

variable {s s' : Stream} {part text text' : Bytes} {reply reply' : Reply}

/-- A part of a text arrives at a device from which nothing is held back. -/
theorem takes_part (hheld : s.buffer.held = []) (hheld' : s'.buffer.held = [])
    (hreceived : s'.received = s.received ++ part)
    (herror : ∀ n, reply = .done n none → s'.buffer.error = none) : s.Takes part (s', reply) := by
  have hcontent : s.content = s.received := by rw [content, hheld, List.append_nil]
  have hcontent' : s'.content = s'.received := by rw [content, hheld', List.append_nil]
  have hdue : s'.due = s'.received := by
    rw [due, Buffer.due, hheld']
    split <;> exact List.append_nil _
  refine ⟨?_, ?_, fun n hn => ⟨herror n hn, ?_⟩⟩
  · rw [hreceived]
    exact List.prefix_append _ _
  · rw [hdue, hcontent, hreceived]
  · rw [hcontent', hcontent, hreceived]

/-- If there is an error, a text may go on behind the part that arrives. -/
theorem Takes.extend (h : s.Takes part (s', reply)) (hpart : part <+: text)
    (hwhole : ∀ n, reply' = .done n none → reply = .done n none ∧ part = text) :
    s.Takes text (s', reply') where
  grows := h.grows
  due := h.due.trans ((List.prefix_append_right_inj _).2 hpart)
  whole := by
    intro n hn
    obtain ⟨hreply, rfl⟩ := hwhole n hn
    exact h.whole n hreply

theorem Takes.trans {n : Nat} {called : Stream × Reply} (h : s.Takes text (s', .done n none))
    (h' : s'.Takes text' called) : s.Takes (text ++ text') called := by
  obtain ⟨-, hcontent⟩ := h.whole n rfl
  have hdue := h'.due
  have hwhole := h'.whole
  rw [hcontent, List.append_assoc] at hdue hwhole
  exact ⟨h.grows.trans h'.grows, hdue, hwhole⟩

/-- What a device without a buffer gets. -/
theorem takes_write {d : Device} (hd : d.behavior.Lawful) (hs : s.received = d.received)
    (hs' : s'.received = (d.write text).1.received) (hbuffer : s.buffer = {})
    (hbuffer' : s'.buffer = {}) : s.Takes text (s', (d.write text).2) := by
  have hreceived := d.write_received text
  rw [← hs, ← hs'] at hreceived
  have htakes : s.Takes (text.take (d.write text).2.count) (s', (d.write text).2) :=
    takes_part (by rw [hbuffer]) (by rw [hbuffer']) hreceived fun _ _ => by rw [hbuffer']
  refine htakes.extend (List.take_prefix _ _) ?_
  intro n hn
  have hcount : n = text.length := Device.write_whole hd (Prod.ext rfl hn)
  exact ⟨hn, by rw [hn, Reply.count, hcount, List.take_length]⟩

end

/-! ## Buffers -/

theorem flushBuffer_flushes (d : Device) (b : Buffer) :
    (buffered d b).Flushes (onBuffer (flushBuffer d b)) := by
  obtain ⟨held, error⟩ := b
  unfold flushBuffer
  cases error with
  | some e => exact ⟨List.prefix_refl _, List.prefix_refl _, by simp [onBuffer]⟩
  | none =>
    by_cases hempty : held = []
    · subst hempty
      refine ⟨List.prefix_refl _, List.prefix_refl _, fun _ _ => ⟨rfl, ?_⟩⟩
      exact (List.append_nil _).symm
    have hheld : held.isEmpty = false := by simpa using hempty
    have hreceived := d.write_received held
    simp only [hheld, Bool.false_eq_true, if_false]
    generalize d.write held = called at hreceived ⊢
    obtain ⟨d', reply⟩ := called
    cases reply with
    | panic message =>
      have hsame : d'.received = d.received := by simpa [Reply.count] using hreceived
      refine ⟨?_, ?_, by simp [onBuffer]⟩
      · simp [received, device, onBuffer, hsame]
      · simp [due, received, device, buffer, onBuffer, hsame]
    | done count error =>
      have hpart : d'.received = d.received ++ held.take count := hreceived
      simp only
      generalize herror : (if count < held.length then error <|> some .short else error) = error'
      cases error' with
      | some e =>
        refine ⟨?_, ?_, by simp [onBuffer]⟩
        · simp [received, device, onBuffer, hpart]
        · simp [due, received, device, buffer, onBuffer, hpart, Buffer.due, List.take_prefix]
      | none =>
        have hall : held.length ≤ count := by
          by_contra hshort
          rw [if_pos (by omega)] at herror
          cases error <;> cases herror
        rw [List.take_of_length_le hall] at hpart
        refine ⟨?_, ?_, fun _ _ => ⟨rfl, ?_⟩⟩
        · simp [received, device, onBuffer, hpart]
        · simp [due, received, device, buffer, onBuffer, hpart, Buffer.due]
        · simp [content, received, device, buffer, onBuffer, hpart]

theorem content_held (d : Device) (b : Buffer) (s : Bytes) :
    (buffered d { b with held := b.held ++ s }).content = (buffered d b).content ++ s :=
  (List.append_assoc _ _ _).symm

theorem due_held (d : Device) {b : Buffer} (hb : b.error = none) (s : Bytes) :
    (buffered d { b with held := b.held ++ s }).due = (buffered d b).content ++ s := by
  rw [← content_held]
  exact due_of_error hb

theorem fillBuffer_takes (d : Device) {b : Buffer} (hb : b.error = none) (s : Bytes) :
    (buffered d b).Takes (s.take b.free) (onBuffer (fillBuffer d b s)) := by
  have hflushes := flushBuffer_flushes d { b with held := b.held ++ s.take b.free }
  refine ⟨hflushes.grows, due_held d hb _ ▸ hflushes.due, ?_⟩
  intro n hn
  obtain ⟨hbuffer, hreceived⟩ := hflushes.whole n hn
  refine ⟨congrArg Buffer.error hbuffer, ?_⟩
  rw [← content_held, ← hreceived, content, fillBuffer, hbuffer, List.append_nil]

theorem passBuffer_takes (d : Device) {b : Buffer} (hb : b.held = []) (s : Bytes) :
    (buffered d b).Takes (s.take (passBuffer d b s).2.2.count) (onBuffer (passBuffer d b s)) := by
  unfold passBuffer
  split
  · exact takes_part hb hb (by simp [received, device, Reply.count]) (by simp)
  · rename_i hended _
    exact takes_part hb hb hended.received (by simp)
  · rename_i hended _
    refine takes_part hb hb hended.received ?_
    intro n hn
    exact (Reply.done.inj hn).2

/-- However a buffer is written to, the device gets the text in order. -/
theorem writeBuffer_takes (direct : Bool) (d : Device) (b : Buffer) (s : Bytes) (count : Nat)
    (hb : b.error = none) :
    (buffered d b).Takes s (onBuffer (writeBuffer direct d b s count)) := by
  fun_induction writeBuffer direct d b s count with
  | case1 d b s count e he =>
    rw [hb] at he
    cases he
  | case2 d b s count _ hle =>
    refine ⟨List.prefix_refl _, ?_, fun _ _ => ⟨hb, content_held d b s⟩⟩
    exact (due_held d hb s).symm ▸ List.prefix_refl _
  | case3 d b s count _ _ hdirect d' b' n hpass _ ih =>
    have htakes := passBuffer_takes d hdirect.2 s
    rw [hpass] at htakes
    have hrest := htakes.trans (ih (htakes.whole n rfl).1)
    rwa [Reply.count, List.take_append_drop] at hrest
  | case4 d b s count _ _ hdirect d' b' n e hpass =>
    have htakes := passBuffer_takes d hdirect.2 s
    rw [hpass] at htakes
    exact htakes.extend (List.take_prefix _ _) (by simp)
  | case5 d b s count _ _ hdirect d' b' message hpass =>
    have htakes := passBuffer_takes d hdirect.2 s
    rw [hpass] at htakes
    exact htakes.extend (List.take_prefix _ _) (by simp)
  | case6 d b s count _ _ _ d' b' n hfill _ ih =>
    have htakes := fillBuffer_takes d hb s
    rw [hfill] at htakes
    have hrest := htakes.trans (ih (htakes.whole n rfl).1)
    rwa [List.take_append_drop] at hrest
  | case7 d b s count _ _ _ d' b' n e hfill =>
    have htakes := fillBuffer_takes d hb s
    rw [hfill] at htakes
    exact htakes.extend (List.take_prefix _ _) (by simp)
  | case8 d b s count _ _ _ d' b' message hfill =>
    have htakes := fillBuffer_takes d hb s
    rw [hfill] at htakes
    exact htakes.extend (List.take_prefix _ _) (by simp)

/-! ## Calls -/

theorem write_takes {s : Stream} (hs : s.behavior.Lawful) (herror : s.buffer.error = none)
    (text : Bytes) : s.Takes text (s.write text) := by
  cases s with
  | flushing d => exact takes_write hs rfl rfl rfl rfl
  | plain d => exact takes_write hs rfl rfl rfl rfl
  | buffered d b => exact writeBuffer_takes true d b text 0 herror

theorem writeText_takes {s : Stream} (hs : s.behavior.Lawful) (herror : s.buffer.error = none)
    (text : Bytes) : s.Takes text (s.writeText text) := by
  cases s with
  | flushing d => exact takes_write hs rfl rfl rfl rfl
  | plain d => exact takes_write hs rfl rfl rfl rfl
  | buffered d b => exact writeBuffer_takes false d b text 0 herror

theorem flush_flushes (s : Stream) : s.Flushes s.flush := by
  cases s with
  | flushing d =>
    have hreceived : (flushing d.flush.1).received = (flushing d).received := d.flush_received
    have hcontent : (flushing d).content = (flushing d).received := List.append_nil _
    have hdue : (flushing d.flush.1).due = (flushing d).due := congrArg (· ++ []) hreceived
    refine ⟨?_, ?_, fun _ _ => ⟨rfl, hreceived.trans hcontent.symm⟩⟩
    · exact hreceived ▸ List.prefix_refl _
    · exact hdue ▸ List.prefix_refl _
  | plain d =>
    exact ⟨List.prefix_refl _, List.prefix_refl _, fun _ _ => ⟨rfl, (List.append_nil _).symm⟩⟩
  | buffered d b => exact flushBuffer_flushes d b

/-- The stream `s` was `before`, and has got no more than an initial part of a text since. -/
structure Behind (before : Stream) (text : Bytes) (s : Stream) : Prop where
  behavior : s.behavior = before.behavior
  grows : before.received <+: s.received
  due : s.due <+: before.received ++ text

/-- The stream `s` was `before`, and a text was added to it without an error. -/
structure Abreast (before : Stream) (text : Bytes) (s : Stream) : Prop where
  behavior : s.behavior = before.behavior
  grows : before.received <+: s.received
  error : s.buffer.error = none
  content : s.content = before.received ++ text

/-- The stream `s` was `before`, and its device has got a text since. -/
structure Arrived (before : Stream) (text : Bytes) (s : Stream) : Prop
    extends before.Abreast text s where
  received : s.received = before.received ++ text

section

variable {before s : Stream} {text more : Bytes}

theorem Abreast.behind (h : before.Abreast text s) (more : Bytes) :
    before.Behind (text ++ more) s where
  behavior := h.behavior
  grows := h.grows
  due := by
    rw [due_of_error h.error, h.content, ← List.append_assoc]
    exact List.prefix_append _ _

theorem Takes.behind {called : Stream × Reply} (h : before.Abreast text s)
    (htakes : s.Takes more called) (hbehavior : called.1.behavior = s.behavior) :
    before.Behind (text ++ more) called.1 where
  behavior := hbehavior.trans h.behavior
  grows := h.grows.trans htakes.grows
  due := by
    rw [← List.append_assoc, ← h.content]
    exact htakes.due

theorem Takes.abreast {s' : Stream} {n : Nat} (h : before.Abreast text s)
    (htakes : s.Takes more (s', .done n none)) (hbehavior : s'.behavior = s.behavior) :
    before.Abreast (text ++ more) s' where
  behavior := hbehavior.trans h.behavior
  grows := h.grows.trans htakes.grows
  error := (htakes.whole n rfl).1
  content := by rw [(htakes.whole n rfl).2, h.content, List.append_assoc]

theorem Behind.flush (h : before.Behind text s) : before.Behind text s.flush.1 where
  behavior := s.flush_answers.behavior.trans h.behavior
  grows := h.grows.trans s.flush_flushes.grows
  due := s.flush_flushes.due.trans h.due

theorem Abreast.flush {s' : Stream} {n : Nat} (h : before.Abreast text s)
    (hflush : s.flush = (s', .done n none)) : before.Arrived text s' := by
  have hflushes := s.flush_flushes
  have hanswers := s.flush_answers
  rw [hflush] at hflushes hanswers
  obtain ⟨hbuffer, hreceived⟩ := hflushes.whole n rfl
  have hall : s'.received = before.received ++ text := hreceived.trans h.content
  refine ⟨⟨hanswers.behavior.trans h.behavior, h.grows.trans hflushes.grows, ?_, ?_⟩, hall⟩
  · exact congrArg Buffer.error hbuffer
  · rw [Stream.content, congrArg Buffer.held hbuffer, List.append_nil, hall]

/-- What the device has got is behind what was there before. -/
theorem Behind.exists_part (h : before.Behind text s) :
    ∃ part, part <+: text ∧ s.received = before.received ++ part := by
  obtain ⟨part, hpart⟩ := h.grows
  have hall : before.received ++ part <+: before.received ++ text :=
    hpart.symm ▸ s.received_prefix_due.trans h.due
  exact ⟨part, (List.prefix_append_right_inj _).1 hall, hpart.symm⟩

end

end Stream

/-! ## Output -/

namespace Output

/-- Each stream of `o` has got no more than an initial part of a text. -/
def Behind (before : Output) (text : Bytes) (o : Output) : Prop :=
  List.Forall₂ (fun b s => b.Behind text s) before o

/-- Each stream of `o` has got a text. -/
def Abreast (before : Output) (text : Bytes) (o : Output) : Prop :=
  List.Forall₂ (fun b s => b.Abreast text s) before o

/-- Each device of `o` has got a text. -/
def Arrived (before : Output) (text : Bytes) (o : Output) : Prop :=
  List.Forall₂ (fun b s => b.Arrived text s) before o

/-- A call on an output that adds the last part of a text. -/
structure Spreads (before : Output) (text : Bytes) (called : Output × Reply) : Prop where
  behind : before.Behind text called.1
  abreast : ∀ n, called.2 = .done n none → before.Abreast text called.1

section

variable {before o : Output} {text : Bytes}

theorem Abreast.behind (h : before.Abreast text o) (more : Bytes) :
    before.Behind (text ++ more) o :=
  h.imp fun _ _ hstream => hstream.behind more

theorem writeAll_spreads (h : before.Abreast text o)
    (hlawful : ∀ stream ∈ before, stream.behavior.Lawful) (more : Bytes) :
    before.Spreads (text ++ more) (writeAll more o) := by
  induction h with
  | nil => exact ⟨.nil, fun _ _ => .nil⟩
  | @cons b stream before o hstream h ih =>
    obtain ⟨hb, hbefore⟩ := List.forall_mem_cons.1 hlawful
    have hrest : Output.Behind before (text ++ more) o := Abreast.behind h more
    have htakes := Stream.write_takes (hstream.behavior ▸ hb) hstream.error more
    have hbehavior := (stream.write_answers more).behavior
    have hbehind := htakes.behind hstream hbehavior
    unfold writeAll
    split
    · rename_i stream' n heq
      rw [heq] at htakes hbehavior hbehind
      split
      · have hcons := ih hbefore
        refine ⟨.cons hbehind hcons.behind, fun n' hn' => ?_⟩
        exact .cons (htakes.abreast hstream hbehavior) (hcons.abreast n' hn')
      · exact ⟨.cons hbehind hrest, by simp⟩
    · rename_i stream' reply hne heq
      rw [heq] at hbehind
      refine ⟨.cons hbehind hrest, fun n hn => ?_⟩
      exact absurd hn (hne n)

/-- A single stream answers for itself. -/
theorem spreads_singleton {b stream : Stream} {more : Bytes} {called : Stream × Reply}
    (h : b.Abreast text stream) (htakes : stream.Takes more called)
    (hbehavior : called.1.behavior = stream.behavior) :
    Spreads [b] (text ++ more) ([called.1], called.2) := by
  refine ⟨.cons (htakes.behind h hbehavior) .nil, ?_⟩
  intro n hn
  obtain ⟨stream', reply⟩ := called
  obtain rfl : reply = .done n none := hn
  exact .cons (htakes.abreast h hbehavior) .nil

theorem write_spreads (h : before.Abreast text o)
    (hlawful : ∀ stream ∈ before, stream.behavior.Lawful) (more : Bytes) :
    before.Spreads (text ++ more) (o.write more) := by
  unfold write
  split
  · rename_i stream
    obtain ⟨b, _, hstream, hnil, rfl⟩ := List.forall₂_cons_right_iff.1 h
    obtain rfl := List.forall₂_nil_right_iff.1 hnil
    have hb := hlawful b List.mem_cons_self
    exact spreads_singleton hstream
      (Stream.write_takes (hstream.behavior ▸ hb) hstream.error more)
      (stream.write_answers more).behavior
  · exact writeAll_spreads h hlawful more

theorem writeText_spreads (h : before.Abreast text o)
    (hlawful : ∀ stream ∈ before, stream.behavior.Lawful) (more : Bytes) :
    before.Spreads (text ++ more) (o.writeText more) := by
  unfold writeText
  split
  · rename_i stream
    obtain ⟨b, _, hstream, hnil, rfl⟩ := List.forall₂_cons_right_iff.1 h
    obtain rfl := List.forall₂_nil_right_iff.1 hnil
    have hb := hlawful b List.mem_cons_self
    exact spreads_singleton hstream
      (Stream.writeText_takes (hstream.behavior ▸ hb) hstream.error more)
      (stream.writeText_answers more).behavior
  · exact writeAll_spreads h hlawful more

/-- A flush adds nothing to what was written, even if there was an error before. -/
theorem Behind.flush (h : before.Behind text o) : before.Behind text o.flush.1 := by
  induction h with
  | nil => exact .nil
  | @cons b stream before o hstream h ih =>
    have hbehind := hstream.flush
    unfold Output.flush
    split
    · rename_i heq
      rw [heq] at hbehind
      exact .cons hbehind h
    · rename_i heq
      rw [heq] at hbehind
      split
      · rename_i heq'
        rw [heq'] at ih
        exact .cons hbehind ih
      · rename_i heq'
        rw [heq'] at ih
        exact .cons hbehind ih

/-- After a flush without an error, everything that was written has arrived. -/
theorem Abreast.flush (h : before.Abreast text o) {o' : Output} {n : Nat}
    (hflush : o.flush = (o', .done n none)) : before.Arrived text o' := by
  induction h generalizing o' n with
  | nil =>
    cases hflush
    exact .nil
  | @cons b stream before o hstream h ih =>
    unfold Output.flush at hflush
    split at hflush
    · cases hflush
    · rename_i stream' count error heq
      split at hflush
      · cases hflush
      · rename_i o₁ count' error' heq'
        cases error with
        | some e => cases hflush
        | none =>
          cases error' with
          | some e => cases hflush
          | none =>
            cases hflush
            exact .cons (hstream.flush heq) (ih heq')

theorem flush_spreads (h : before.Abreast text o) : before.Spreads text o.flush := by
  have hbehind := (Abreast.behind h []).flush
  rw [List.append_nil] at hbehind
  refine ⟨hbehind, fun n hn => ?_⟩
  exact (Abreast.flush h (Prod.ext rfl hn)).imp fun _ _ harrived => harrived.toAbreast

end

end Output

/-! ## Runs -/

/-- The text that an instruction writes. -/
def Effect.text? : Effect → Option Bytes
  | .emit text _ => some text
  | _ => none

namespace Session

/-- The text that the next instruction writes. If the log refuses its line, the instruction does not
get to run. -/
def text? (s : Session) : Option Bytes :=
  match s.machine.fetch? with
  | none => none
  | some op =>
    match s.traceOp op with
    | (t, none) => (op.run t.machine).text?
    | _ => none

/-- The texts that the instructions of a run write, in that order. The last one is there even if an
error of the output cuts it short. -/
def texts (polls : Nat) (s : Session) : List Bytes :=
  if s.machine.running then
    match s.step with
    | (t, none) =>
      match polls with
      | 0 => s.text?.toList
      | polls + 1 => s.text?.toList ++ texts polls t
    | _ => s.text?.toList
  else []

/-- What the texts of a run are for terminals, one behind the other. -/
def written (s : Session) (budget : Budget) (src : Bytes) : Bytes :=
  match s.load src with
  | (t, none) =>
    ((t.setIndent (t.indent ++ lit "\t")).texts budget.polls).flatMap Terminal.encode
  | _ => []

/-- An operation that adds the last part of a text to the output. An abort has an error to report. -/
structure Issues (before : Output) (text : Bytes) (ended : Session × Option Abort) : Prop where
  behind : before.Behind text ended.1.output
  abreast : ended.2 = none → before.Abreast text ended.1.output
  reports : ∀ a, ended.2 = some a → ∃ e, a.recover (lit "VM") = some e

section

variable {before : Output} {s : Session} {text : Bytes}

theorem Issues.of_output {ended : Session × Option Abort} {s' : Session}
    (h : Issues before text ended) (houtput : s'.output = ended.1.output) :
    Issues before text (s', ended.2) :=
  ⟨houtput ▸ h.behind, fun hnone => houtput ▸ h.abreast hnone, h.reports⟩

theorem halt_issues (h : before.Behind text s.output) (e : Error) :
    Issues before text (s.halt (some e)) := by
  obtain ⟨t, hhalt, -, -, houtput⟩ := s.halt_eq e
  rw [hhalt]
  refine ⟨?_, by simp, ?_⟩
  · exact houtput ▸ h.flush
  · rintro a ⟨⟩
    exact ⟨e, rfl⟩

theorem afterCall_issues {called : Output × Reply} (h : before.Spreads text called) (s : Session) :
    Issues before text (s.afterCall called) := by
  obtain ⟨o, reply⟩ := called
  cases reply with
  | panic message =>
    refine ⟨h.behind, by simp [afterCall], ?_⟩
    rintro a ⟨⟩
    exact ⟨_, rfl⟩
  | done n error =>
    cases error with
    | none => exact ⟨h.behind, fun _ => h.abreast n rfl, by simp [afterCall]⟩
    | some e => exact halt_issues h.behind (.output e)

theorem flush_issues (h : before.Abreast text s.output) : Issues before text s.flush :=
  afterCall_issues (Output.flush_spreads h) s

section

variable (hlawful : ∀ stream ∈ before, stream.behavior.Lawful)

include hlawful

theorem write_issues (h : before.Abreast text s.output) (more : Bytes) :
    Issues before (text ++ Terminal.encode more) (s.write more) := by
  have hcall : before.Spreads (text ++ Terminal.encode more)
      (if Terminal.hasControl more then s.output.write (Terminal.encode more)
        else s.output.writeText more) := by
    by_cases hcontrol : Terminal.hasControl more
    · rw [if_pos hcontrol]
      exact Output.write_spreads h hlawful _
    · rw [if_neg hcontrol, Terminal.encode, if_neg hcontrol]
      exact Output.writeText_spreads h hlawful _
  have hissues := afterCall_issues hcall s
  simp only [write]
  generalize s.afterCall _ = ended at hissues ⊢
  obtain ⟨t, _ | a⟩ := ended
  · exact flush_issues (hissues.abreast rfl)
  · exact hissues

theorem perform_issues (h : before.Abreast text s.output) (effect : Effect) :
    Issues before (text ++ effect.text?.toList.flatMap Terminal.encode) (s.perform effect) := by
  have hbehind := Output.Abreast.behind h []
  cases effect with
  | next m => exact ⟨hbehind, fun _ => (List.append_nil text).symm ▸ h, by simp [perform]⟩
  | emit more m =>
    have hissues := write_issues (s := { s with machine := m }) hlawful h more
    simp only [perform, Effect.text?, Option.toList_some, List.flatMap_singleton]
    generalize { s with machine := m }.write more = ended at hissues ⊢
    obtain ⟨t, _ | a⟩ := ended
    · exact hissues.of_output rfl
    · exact hissues
  | fault f m => exact halt_issues (s := { s with machine := m }) hbehind (.fault f)
  | stuck =>
    refine ⟨hbehind, by simp [perform], ?_⟩
    rintro a ⟨⟩
    exact ⟨_, rfl⟩

theorem step_issues (h : before.Abreast text s.output) :
    Issues before (text ++ s.text?.toList.flatMap Terminal.encode) s.step := by
  unfold step text?
  cases s.machine.fetch? with
  | none =>
    refine ⟨Output.Abreast.behind h [], by simp, ?_⟩
    rintro a ⟨⟩
    exact ⟨_, rfl⟩
  | some op =>
    have houtput := s.traceOp_output op
    have hserves := s.traceOp_serves op
    simp only
    generalize s.traceOp op = traced at houtput hserves ⊢
    obtain ⟨t, _ | a⟩ := traced
    · exact perform_issues hlawful (houtput ▸ h) _
    · refine ⟨houtput ▸ Output.Abreast.behind h [], by simp, ?_⟩
      rintro a ⟨⟩
      obtain ⟨e, he, -⟩ := hserves.proper a rfl
      exact ⟨e, he⟩

/-- What a run adds to the output. -/
theorem loop_issues (h : before.Abreast text s.output) (i : Interruption) (polls : Nat) :
    Issues before (text ++ (s.texts polls).flatMap Terminal.encode) (s.loop i polls) := by
  fun_induction loop i polls s generalizing text with
  | case1 s hrunning t hstep =>
    have hissues := step_issues hlawful h
    rw [hstep] at hissues
    rw [texts, if_pos hrunning, hstep]
    exact halt_issues hissues.behind _
  | case2 s hrunning t hstep polls ih =>
    have hissues := step_issues hlawful h
    rw [hstep] at hissues
    rw [texts, if_pos hrunning, hstep]
    simp only [List.flatMap_append, ← List.append_assoc]
    exact ih (hissues.abreast rfl)
  | case3 polls s hrunning hne =>
    have hissues := step_issues hlawful h
    rw [texts, if_pos hrunning]
    split
    · rename_i t heq
      exact (hne t heq).elim
    · exact hissues
  | case4 polls s hrunning =>
    rw [texts, if_neg hrunning]
    exact ⟨Output.Abreast.behind h [], fun _ => (List.append_nil text).symm ▸ h, by simp⟩

/-- What a run adds to the output before it is over, and what has arrived if it ends well. -/
theorem finish_issues (h : before.Abreast text s.output) (budget : Budget) :
    Issues before (text ++
        ((s.setIndent (s.indent ++ lit "\t")).texts budget.polls).flatMap Terminal.encode)
      (s.finish budget) ∧
    ((s.finish budget).2 = none → before.Arrived (text ++
        ((s.setIndent (s.indent ++ lit "\t")).texts budget.polls).flatMap Terminal.encode)
      (s.finish budget).1.output) := by
  have hloop := loop_issues (s := s.setIndent (s.indent ++ lit "\t")) hlawful h
    budget.interruption budget.polls
  generalize text ++ ((s.setIndent (s.indent ++ lit "\t")).texts budget.polls).flatMap
    Terminal.encode = all at hloop ⊢
  have hexec : Issues before all (s.exec budget) := hloop.of_output rfl
  unfold finish
  generalize s.exec budget = ended at hexec ⊢
  obtain ⟨t, _ | a⟩ := ended
  · have habreast := hexec.abreast rfl
    refine ⟨flush_issues habreast, ?_⟩
    intro hnone
    simp only [flush] at hnone ⊢
    cases hflush : t.output.flush with
    | mk o reply =>
      rw [hflush] at hnone
      cases reply with
      | panic message => cases hnone
      | done n error =>
        cases error with
        | none => exact Output.Abreast.flush habreast hflush
        | some e =>
          obtain ⟨u, hhalt, -⟩ := { t with output := o }.halt_eq (.output e)
          rw [afterCall, hhalt] at hnone
          cases hnone
  · exact ⟨hexec, by simp⟩

end

/-- A source that is refused adds nothing to the output. -/
theorem load_issues (h : before.Abreast text s.output) (src : Bytes) :
    Issues before text (s.load src) := by
  have hbehind := List.append_nil text ▸ Output.Abreast.behind h []
  unfold load
  generalize Draft.compile { symbols := s.machine.symbols, ops := s.machine.program.ops } src =
    compiled
  obtain ⟨d, result⟩ := compiled
  have hquiet := (s.announce_quiet d.layouts.reverse).1
  rcases s.announce_cases d.layouts.reverse with
    ⟨t, heq, -, -⟩ | ⟨t, a, heq, -, ⟨e, he, -⟩, -⟩
  · rw [heq] at hquiet
    have ht : t.output = s.output := hquiet
    simp only [heq]
    cases result with
    | error e => exact halt_issues (s := t.setSymbols d.symbols) (ht ▸ hbehind) _
    | ok program => exact ⟨ht ▸ hbehind, fun _ => ht ▸ h, by simp⟩
  · rw [heq] at hquiet
    have ht : t.output = s.output := hquiet
    simp only [heq]
    refine ⟨ht ▸ hbehind, by simp, ?_⟩
    rintro _ ⟨⟩
    exact ⟨e, he⟩

end

/-! ## Evaluations -/

/-- In a session whose buffers are empty, such as a new one, every device is abreast of the output. -/
theorem abreast_of_empty {o : Output} (h : ∀ stream ∈ o, stream.buffer = {}) :
    o.Abreast [] o := by
  refine List.forall₂_same.2 fun stream hstream => ⟨rfl, List.prefix_refl _, ?_, ?_⟩
  · rw [h stream hstream]
  · rw [Stream.content, h stream hstream]

theorem run_issues {s : Session} (hlawful : ∀ stream ∈ s.output, stream.behavior.Lawful)
    (hempty : ∀ stream ∈ s.output, stream.buffer = {}) (budget : Budget) (src : Bytes) :
    Issues s.output (s.written budget src) (s.run budget src) ∧
      ((s.run budget src).2 = none →
        s.output.Arrived (s.written budget src) (s.run budget src).1.output) := by
  have hload := load_issues (abreast_of_empty hempty) src
  unfold run written
  generalize s.load src = loaded at hload ⊢
  obtain ⟨t, _ | a⟩ := loaded
  · exact finish_issues hlawful (hload.abreast rfl) budget
  · exact ⟨hload, by simp⟩

/-- An evaluation without an error is a run that was not aborted. -/
theorem Issues.unaborted {s t : Session} {before : Output} {text : Bytes} {budget : Budget}
    {src : Bytes} (hissues : Issues before text (s.run budget src))
    (h : s.eval budget src = (t, none)) : (s.run budget src).2 = none := by
  rw [eval] at h
  generalize s.run budget src = ended at hissues h ⊢
  obtain ⟨u, _ | a⟩ := ended
  · rfl
  · obtain ⟨e, he⟩ := hissues.reports a rfl
    rw [conclude_some he] at h
    cases h

/-- Let no stream of a session hold anything back, as it is when the session is new, and let its
devices report an error whenever they take less than they are offered. Then, whatever errors they
report at whatever calls, an evaluation adds to each of them an initial part of what the
instructions wrote, and all of it if there is no error. -/
theorem eval_receives (s : Session) (hlawful : ∀ stream ∈ s.output, stream.behavior.Lawful)
    (hempty : ∀ stream ∈ s.output, stream.buffer = {}) (budget : Budget) (src : Bytes)
    (t : Session) (e : Option Error) (h : s.eval budget src = (t, e)) :
    List.Forall₂ (fun before after => after.behavior = before.behavior ∧
      ∃ got, got <+: s.written budget src ∧ after.received = before.received ++ got ∧
        (e = none → got = s.written budget src)) s.output t.output := by
  obtain ⟨hissues, harrived⟩ := run_issues hlawful hempty budget src
  rcases s.eval_cases budget src with heval | ⟨a, e', -, heval⟩
  · rw [h] at heval
    obtain ⟨rfl, rfl⟩ := Prod.mk.inj heval
    refine (harrived (hissues.unaborted h)).imp fun before after hafter => ⟨hafter.behavior, ?_⟩
    exact ⟨_, List.prefix_refl _, hafter.received, fun _ => rfl⟩
  · rw [h] at heval
    cases heval
    refine hissues.behind.imp fun before after hafter => ⟨hafter.behavior, ?_⟩
    obtain ⟨got, hgot, hreceived⟩ := hafter.exists_part
    exact ⟨got, hgot, hreceived, by simp⟩

/-- Takes nothing at its second write, and says so. -/
def fullAtSecond : Behavior where
  write call offered :=
    if call = 2 then .done 0 (some (.failed (lit "full"))) else .done offered none
  flush _ := .done 0 none

theorem lawful_fullAtSecond : fullAtSecond.Lawful := by
  intro call offered count h
  simp only [fullAtSecond] at h
  split at h
  · cases h
  · cases h
    exact Nat.le_refl _

/-- Three devices, of which the second one is behind a buffer and fails at its second write: the
text of the second instruction gets to the two others, and the last instruction does not get to
run. -/
theorem eval_receives_failing : ∃ s t,
    s = new (.of []) [.output (some (.plain {})),
      .tee (some (.buffered { behavior := fullAtSecond } {})), .tee (some (.flushing {}))] ∧
    (∀ stream ∈ s.output, stream.behavior.Lawful) ∧ (∀ stream ∈ s.output, stream.buffer = {}) ∧
    s.eval { polls := 9 } (lit "7 print nl print") =
      (t, some (.output (.failed (lit "full")))) ∧
    s.written { polls := 9 } (lit "7 print nl print") = lit "7\n" ∧
    t.output.map Stream.received = [lit "7\n", lit "7", lit "7\n"] ∧
    List.Forall₂ (fun before after => after.behavior = before.behavior ∧
      ∃ got, got <+: lit "7\n" ∧ after.received = before.received ++ got) s.output t.output := by
  obtain ⟨s, t, hs, heval, hwritten, hreceived⟩ : ∃ s t,
      s = new (.of []) [.output (some (.plain {})),
        .tee (some (.buffered { behavior := fullAtSecond } {})), .tee (some (.flushing {}))] ∧
      s.eval { polls := 9 } (lit "7 print nl print") =
        (t, some (.output (.failed (lit "full")))) ∧
      s.written { polls := 9 } (lit "7 print nl print") = lit "7\n" ∧
      t.output.map Stream.received = [lit "7\n", lit "7", lit "7\n"] :=
    ⟨_, _, rfl, by cbv, by cbv, by cbv⟩
  have houtput : s.output =
      [.plain {}, .buffered { behavior := fullAtSecond } {}, .flushing {}] := by
    rw [hs]
    rfl
  have hlawful : ∀ stream ∈ s.output, stream.behavior.Lawful := by
    have hfaithful : Behavior.faithful.Lawful := by
      rintro call offered count ⟨⟩
      exact Nat.le_refl _
    simp [houtput, Stream.behavior, Stream.device, hfaithful, lawful_fullAtSecond]
  have hempty : ∀ stream ∈ s.output, stream.buffer = {} := by
    simp [houtput, Stream.buffer]
  refine ⟨s, t, hs, hlawful, hempty, heval, hwritten, hreceived, ?_⟩
  have hreceives := eval_receives s hlawful hempty _ _ t _ heval
  rw [hwritten] at hreceives
  refine hreceives.imp fun before after hafter => ?_
  obtain ⟨hbehavior, got, hgot, heq, -⟩ := hafter
  exact ⟨hbehavior, got, hgot, heq⟩

end Session

end StackLang
