import StackLang.Proofs.Representation
import StackLang.Session

/-!
# How a session is aborted

What can go wrong in a session apart from its machine. Calls on the output and lines for the log
leave the machine alone, and every abort has an error to report. A session panics only over a device
or a log that panics.

* `Behavior.Calm`, `Session.Calm`: devices and logs that never panic.
* `Error.Expected`: an error that is neither a panic, nor an exit, nor an internal fault.
* `Session.Serves`: what an operation on output and log may do to a session.
-/

namespace StackLang

/-! ## Devices and streams -/

/-- Devices of this behavior never panic. -/
def Behavior.Calm (b : Behavior) : Prop :=
  (∀ call offered message, b.write call offered ≠ .panic message) ∧
    ∀ call message, b.flush call ≠ .panic message

theorem Behavior.calm_faithful : Behavior.faithful.Calm := by
  constructor
  · intro call offered message h
    cases h
  · intro call message h
    cases h

def Reply.Calm (reply : Reply) : Prop := ∀ message, reply ≠ .panic message

/-- A call leaves the behavior of a device as it is, and panics only if the device can. -/
structure Behavior.Answers (b b' : Behavior) (reply : Reply) : Prop where
  behavior : b' = b
  calm : b.Calm → reply.Calm

def Stream.behavior (s : Stream) : Behavior := s.device.behavior

theorem Device.write_answers (d : Device) (s : Bytes) :
    d.behavior.Answers (d.write s).1.behavior (d.write s).2 := by
  refine ⟨rfl, ?_⟩
  intro hcalm message
  simp only [Device.write]
  split
  · simp
  · rename_i hpanic
    exact absurd hpanic (hcalm.1 _ _ _)

theorem Device.Ends.answers {d : Device} {s : Bytes} {ended : Device × Reply}
    (h : Ends s d ended) : d.behavior.Answers ended.1.behavior ended.2 := by
  induction h with
  | @now d _ => exact d.write_answers s
  | @later d d' _ hidle _ ih =>
    have hbehavior := (d.write_answers s).behavior
    rw [hidle] at hbehavior
    exact hbehavior ▸ ih

theorem Device.flush_answers (d : Device) :
    d.behavior.Answers d.flush.1.behavior d.flush.2 :=
  ⟨rfl, fun hcalm => hcalm.2 _⟩

theorem Reply.calm_done (count : Nat) (error : Option OutputError) :
    (Reply.done count error).Calm := by
  intro message h
  cases h

namespace Stream

theorem flushBuffer_answers (d : Device) (b : Buffer) :
    d.behavior.Answers (flushBuffer d b).1.behavior (flushBuffer d b).2.2 := by
  unfold flushBuffer
  split
  · exact ⟨rfl, fun _ => Reply.calm_done _ _⟩
  · split
    · exact ⟨rfl, fun _ => Reply.calm_done _ _⟩
    · have hwrite := d.write_answers b.held
      split
      · rename_i heq
        rwa [heq] at hwrite
      · rename_i heq
        rw [heq] at hwrite
        simp only
        split
        · exact ⟨hwrite.behavior, fun _ => Reply.calm_done _ _⟩
        · exact ⟨hwrite.behavior, fun _ => Reply.calm_done _ _⟩

theorem passBuffer_answers (d : Device) (b : Buffer) (s : Bytes) :
    d.behavior.Answers (passBuffer d b s).1.behavior (passBuffer d b s).2.2 := by
  unfold passBuffer
  split
  · exact ⟨rfl, fun _ => Reply.calm_done _ _⟩
  · rename_i hended _
    exact hended.answers
  · rename_i hended _
    exact hended.answers

theorem writeBuffer_answers (direct : Bool) (d : Device) (b : Buffer) (s : Bytes) (count : Nat) :
    d.behavior.Answers (writeBuffer direct d b s count).1.behavior
      (writeBuffer direct d b s count).2.2 := by
  fun_induction writeBuffer direct d b s count with
  | case1 => exact ⟨rfl, fun _ => Reply.calm_done _ _⟩
  | case2 => exact ⟨rfl, fun _ => Reply.calm_done _ _⟩
  | case3 d b s count _ _ _ d' b' n hpass _ ih =>
    have hanswers := passBuffer_answers d b s
    rw [hpass] at hanswers
    exact hanswers.behavior ▸ ih
  | case4 d b s count _ _ _ d' b' n e hpass =>
    have hanswers := passBuffer_answers d b s
    rw [hpass] at hanswers
    exact ⟨hanswers.behavior, fun _ => Reply.calm_done _ _⟩
  | case5 d b s count _ _ _ d' b' message hpass =>
    have hanswers := passBuffer_answers d b s
    rwa [hpass] at hanswers
  | case6 d b s count _ _ _ d' b' n hfill _ ih =>
    have hanswers := flushBuffer_answers d { b with held := b.held ++ s.take b.free }
    rw [show flushBuffer d _ = _ from hfill] at hanswers
    exact hanswers.behavior ▸ ih
  | case7 d b s count _ _ _ d' b' n e hfill =>
    have hanswers := flushBuffer_answers d { b with held := b.held ++ s.take b.free }
    rw [show flushBuffer d _ = _ from hfill] at hanswers
    exact ⟨hanswers.behavior, fun _ => Reply.calm_done _ _⟩
  | case8 d b s count _ _ _ d' b' message hfill =>
    have hanswers := flushBuffer_answers d { b with held := b.held ++ s.take b.free }
    rwa [show flushBuffer d _ = _ from hfill] at hanswers

theorem write_answers (s : Bytes) (stream : Stream) :
    stream.behavior.Answers (stream.write s).1.behavior (stream.write s).2 := by
  cases stream with
  | flushing d => exact d.write_answers s
  | plain d => exact d.write_answers s
  | buffered d b => exact writeBuffer_answers true d b s 0

theorem writeText_answers (s : Bytes) (stream : Stream) :
    stream.behavior.Answers (stream.writeText s).1.behavior (stream.writeText s).2 := by
  cases stream with
  | flushing d => exact d.write_answers s
  | plain d => exact d.write_answers s
  | buffered d b => exact writeBuffer_answers false d b s 0

theorem flush_answers (stream : Stream) :
    stream.behavior.Answers stream.flush.1.behavior stream.flush.2 := by
  cases stream with
  | flushing d => exact d.flush_answers
  | plain d => exact ⟨rfl, fun _ => Reply.calm_done _ _⟩
  | buffered d b => exact flushBuffer_answers d b

end Stream

/-! ## Output -/

namespace Output

/-- A call leaves the behavior of all streams as it is, and panics only if one of them can. -/
structure Answers (o : Output) (called : Output × Reply) : Prop where
  behaviors : called.1.map Stream.behavior = o.map Stream.behavior
  calm : (∀ stream ∈ o, stream.behavior.Calm) → called.2.Calm

theorem writeAll_answers (s : Bytes) (o : Output) : o.Answers (writeAll s o) := by
  induction o with
  | nil => exact ⟨rfl, fun _ => Reply.calm_done _ _⟩
  | cons stream streams ih =>
    have hwrite := stream.write_answers s
    unfold writeAll
    split
    · rename_i heq
      rw [heq] at hwrite
      split
      · refine ⟨by simp [hwrite.behavior, ih.behaviors], ?_⟩
        intro hcalm
        exact ih.calm fun stream hstream => hcalm stream (List.mem_cons_of_mem _ hstream)
      · exact ⟨by simp [hwrite.behavior], fun _ => Reply.calm_done _ _⟩
    · rename_i heq
      rw [heq] at hwrite
      exact ⟨by simp [hwrite.behavior], fun hcalm => hwrite.calm (hcalm stream List.mem_cons_self)⟩

/-- A single stream answers for itself. -/
theorem answers_singleton {stream : Stream} {called : Stream × Reply}
    (h : stream.behavior.Answers called.1.behavior called.2) :
    Answers [stream] ([called.1], called.2) :=
  ⟨by simp [h.behavior], fun hcalm => h.calm (hcalm stream List.mem_cons_self)⟩

theorem write_answers (s : Bytes) (o : Output) : o.Answers (o.write s) := by
  unfold write
  split
  · exact answers_singleton (Stream.write_answers s _)
  · exact writeAll_answers s o

theorem writeText_answers (s : Bytes) (o : Output) : o.Answers (o.writeText s) := by
  unfold writeText
  split
  · exact answers_singleton (Stream.writeText_answers s _)
  · exact writeAll_answers s o

theorem flush_answers (o : Output) : o.Answers o.flush := by
  induction o with
  | nil => exact ⟨rfl, fun _ => Reply.calm_done _ _⟩
  | cons stream streams ih =>
    have hflush := stream.flush_answers
    unfold flush
    split
    · rename_i heq
      rw [heq] at hflush
      exact ⟨by simp [hflush.behavior], fun hcalm => hflush.calm (hcalm stream List.mem_cons_self)⟩
    · rename_i heq
      rw [heq] at hflush
      split
      · rename_i heq'
        rw [heq'] at ih
        refine ⟨by simpa [hflush.behavior] using ih.behaviors, ?_⟩
        intro hcalm
        exact ih.calm fun stream hstream => hcalm stream (List.mem_cons_of_mem _ hstream)
      · rename_i heq'
        rw [heq'] at ih
        exact ⟨by simpa [hflush.behavior] using ih.behaviors, fun _ => Reply.calm_done _ _⟩

end Output

/-! ## Errors -/

/-- Neither a panic, nor an exit, nor a fault of the machine itself. -/
structure Error.Expected (e : Error) : Prop where
  panic : e.isPanic = false
  exit : e.isExit = false
  fault : ∀ f, e = .fault f → f.internal = false

theorem Error.expected_fault {f : Fault} (h : f.internal = false) : (Error.fault f).Expected where
  panic := rfl
  exit := rfl
  fault := by
    rintro f' ⟨⟩
    exact h

theorem Error.expected_output (e : OutputError) : (Error.output e).Expected :=
  ⟨rfl, rfl, by simp⟩

theorem Error.expected_interrupted (i : Interruption) : (Error.interrupted i).Expected :=
  ⟨rfl, rfl, by simp⟩

/-- There is an error to report, and it is expected if nothing panics. -/
def Abort.Proper (calm : Prop) (a : Abort) : Prop :=
  ∃ e, a.recover (lit "VM") = some e ∧ (calm → e.Expected)

theorem Abort.Proper.imp {calm calm' : Prop} {a : Abort} (h : a.Proper calm)
    (himp : calm' → calm) : a.Proper calm' := by
  obtain ⟨e, he, hexpected⟩ := h
  exact ⟨e, he, hexpected ∘ himp⟩

/-! ## Sessions -/

namespace Session

/-- No device and no log of the session panics. -/
structure Calm (s : Session) : Prop where
  output : ∀ stream ∈ s.output, stream.behavior.Calm
  trace : ∀ t ∈ s.trace, ∀ call line, t.refuses call line = none

/-- The same devices and the same log, whatever they have seen. -/
structure Alike (s s' : Session) : Prop where
  behaviors : s'.output.map Stream.behavior = s.output.map Stream.behavior
  refusals : s'.trace.map Trace.refuses = s.trace.map Trace.refuses

theorem Alike.refl (s : Session) : s.Alike s := ⟨rfl, rfl⟩

theorem Alike.trans {s₁ s₂ s₃ : Session} (h₁ : s₁.Alike s₂) (h₂ : s₂.Alike s₃) : s₁.Alike s₃ :=
  ⟨h₂.behaviors.trans h₁.behaviors, h₂.refusals.trans h₁.refusals⟩

theorem Alike.setMachine {s s' : Session} (h : s.Alike s') (m : Machine) :
    s.Alike { s' with machine := m } :=
  ⟨h.behaviors, h.refusals⟩

theorem Alike.behavior_mem {s s' : Session} (h : s.Alike s') {stream : Stream}
    (hstream : stream ∈ s'.output) : ∃ stream' ∈ s.output, stream'.behavior = stream.behavior := by
  have hmem : stream.behavior ∈ s.output.map Stream.behavior := by
    rw [← h.behaviors]
    exact List.mem_map_of_mem hstream
  exact List.mem_map.1 hmem

theorem Alike.calm {s s' : Session} (h : s.Alike s') (hcalm : s.Calm) : s'.Calm where
  output := by
    intro stream hstream
    obtain ⟨stream', hstream', heq⟩ := h.behavior_mem hstream
    rw [← heq]
    exact hcalm.output stream' hstream'
  trace := by
    intro t ht
    have hrefuses : some t.refuses = s.trace.map Trace.refuses := by
      rw [← h.refusals, Option.mem_def.1 ht]
      rfl
    obtain ⟨t', ht', heq⟩ := Option.map_eq_some_iff.1 hrefuses.symm
    rw [← heq]
    exact hcalm.trace t' ht'

/-- What an operation on output and log may do: it leaves the machine alone, and an abort is
proper. -/
structure Serves (s : Session) (ended : Session × Option Abort) : Prop where
  machine : ended.1.machine = s.machine
  alike : s.Alike ended.1
  proper : ∀ a, ended.2 = some a → a.Proper s.Calm

theorem Serves.unaborted {s s' : Session} (hmachine : s'.machine = s.machine)
    (halike : s.Alike s') : s.Serves (s', none) :=
  ⟨hmachine, halike, by simp⟩

theorem log_serves (s : Session) (line : Bytes) : s.Serves (s.log line) := by
  unfold log
  split
  · exact .unaborted rfl (.refl s)
  · rename_i t ht
    simp only [Trace.log]
    split
    · rename_i message hrefuses
      refine ⟨rfl, ⟨rfl, by simp [ht]⟩, ?_⟩
      rintro a ⟨⟩
      refine ⟨_, rfl, ?_⟩
      intro hcalm
      rw [hcalm.trace t ht] at hrefuses
      cases hrefuses
    · exact .unaborted rfl ⟨rfl, by simp [ht]⟩

theorem log_output (s : Session) (line : Bytes) : (s.log line).1.output = s.output := by
  unfold log
  split <;> rfl

theorem log_calm {s : Session} (h : s.Calm) (line : Bytes) : (s.log line).2 = none := by
  unfold log
  split
  · rfl
  · rename_i t ht
    simp [Trace.log, h.trace t ht]

/-- A halt reports its error, whatever happens to output and log meanwhile. -/
theorem halt_eq (s : Session) (e : Error) :
    ∃ s', s.halt (some e) = (s', some (.halt (some e))) ∧ s'.machine = s.machine ∧ s.Alike s' ∧
      s'.output = s.output.flush.1 := by
  have hflush := s.output.flush_answers
  unfold halt
  generalize s.output.flush = flushed at hflush ⊢
  obtain ⟨output, reply⟩ := flushed
  have hlog := log_serves { s with output := output }
  have halike : ∀ line, s.Alike ({ s with output := output }.log line).1 := fun line =>
    ⟨(hlog line).alike.behaviors.trans hflush.behaviors, (hlog line).alike.refusals⟩
  cases reply with
  | done count error => exact ⟨_, rfl, (hlog _).machine, halike _, log_output _ _⟩
  | panic message => exact ⟨_, rfl, (hlog _).machine, halike _, log_output _ _⟩

theorem halt_serves (s : Session) {e : Error} (he : s.Calm → e.Expected) :
    s.Serves (s.halt (some e)) := by
  obtain ⟨s', heq, hmachine, halike, -⟩ := s.halt_eq e
  rw [heq]
  refine ⟨hmachine, halike, ?_⟩
  rintro a ⟨⟩
  exact ⟨e, rfl, he⟩

theorem afterCall_serves (s : Session) {called : Output × Reply} (h : s.output.Answers called) :
    s.Serves (s.afterCall called) := by
  obtain ⟨output, reply⟩ := called
  have halike : s.Alike { s with output := output } := ⟨h.behaviors, rfl⟩
  unfold afterCall
  split
  · rename_i o n heq
    cases heq
    exact .unaborted rfl halike
  · rename_i o n e heq
    cases heq
    have hhalt := halt_serves { s with output := output } fun _ => Error.expected_output e
    refine ⟨hhalt.machine, halike.trans hhalt.alike, ?_⟩
    intro a ha
    exact (hhalt.proper a ha).imp halike.calm
  · rename_i o message heq
    cases heq
    refine ⟨rfl, halike, ?_⟩
    rintro a ⟨⟩
    exact ⟨_, rfl, fun hcalm => absurd rfl (h.calm hcalm.output message)⟩

theorem flush_serves (s : Session) : s.Serves s.flush := s.afterCall_serves s.output.flush_answers

/-- One operation after the other. -/
theorem Serves.trans {s s' : Session} {ended : Session × Option Abort}
    (h : s.Serves (s', none)) (h' : s'.Serves ended) : s.Serves ended where
  machine := h'.machine.trans h.machine
  alike := h.alike.trans h'.alike
  proper := by
    intro a ha
    exact (h'.proper a ha).imp h.alike.calm

theorem write_serves (s : Session) (text : Bytes) : s.Serves (s.write text) := by
  have hanswers : s.output.Answers (if Terminal.hasControl text then
      s.output.write (Terminal.encode text) else s.output.writeText text) := by
    split
    · exact s.output.write_answers _
    · exact s.output.writeText_answers _
  have hcall := s.afterCall_serves hanswers
  simp only [write]
  generalize s.afterCall _ = ended at hcall ⊢
  split
  · exact hcall.trans (flush_serves _)
  · exact hcall

theorem column_refuses (t : Trace) (text : Bytes) : (t.column text).1.refuses = t.refuses := by
  unfold Trace.column
  split <;> rfl

theorem traceOp_serves (s : Session) (op : Op) : s.Serves (s.traceOp op) := by
  unfold traceOp
  split
  · exact .unaborted rfl (.refl s)
  · rename_i t ht
    have hset : s.Serves
        ({ s with trace := some (t.column (op.format s.machine.symbols)).1 }, none) :=
      .unaborted rfl ⟨rfl, by simp [ht, column_refuses]⟩
    exact hset.trans (log_serves _ _)

theorem traceOp_output (s : Session) (op : Op) : (s.traceOp op).1.output = s.output := by
  unfold traceOp
  split
  · rfl
  · exact log_output _ _

theorem traceOp_calm {s : Session} (h : s.Calm) (op : Op) : (s.traceOp op).2 = none := by
  unfold traceOp
  split
  · rfl
  · rename_i t ht
    have halike : s.Alike { s with trace := some (t.column (op.format s.machine.symbols)).1 } :=
      ⟨rfl, by simp [ht, column_refuses]⟩
    exact log_calm (halike.calm h) _

theorem setIndent_alike (s : Session) (indent : Bytes) : s.Alike (s.setIndent indent) :=
  ⟨rfl, by cases h : s.trace <;> simp [setIndent, h]⟩

end Session

end StackLang
