import StackLang.Proofs.Sessions

/-!
# Output that arrives

Devices that take what they are offered, and never report an error, get exactly the text that is
written, whatever streams stand in front of them: no more than that, in order, and nothing is held
back when an instruction is done.

* `Behavior.Reliable`, `Session.Reliable`: such devices, and sessions with such devices only.
* `Stream.content`: what a device got, with what a buffer holds back for it.
* `Session.Delivers`: the devices of a session got a text.
* `step_carried`: what an instruction does to a reliable session.
-/

namespace StackLang

/-! ## Devices -/

/-- Devices of this behavior take all they are offered, and report no error. -/
def Behavior.Reliable (b : Behavior) : Prop :=
  (∀ call offered, ∃ count, b.write call offered = .done count none ∧ offered ≤ count) ∧
    ∀ call, ∃ count, b.flush call = .done count none

theorem Behavior.reliable_faithful : Behavior.faithful.Reliable :=
  ⟨fun _ offered => ⟨offered, rfl, Nat.le_refl _⟩, fun _ => ⟨0, rfl⟩⟩

theorem Behavior.Reliable.calm {b : Behavior} (h : b.Reliable) : b.Calm := by
  constructor
  · intro call offered message hpanic
    obtain ⟨count, hdone, -⟩ := h.1 call offered
    rw [hdone] at hpanic
    cases hpanic
  · intro call message hpanic
    obtain ⟨count, hdone⟩ := h.2 call
    rw [hdone] at hpanic
    cases hpanic

namespace Device

theorem taken_append (calls calls' : List Call) :
    taken (calls ++ calls') = taken calls ++ taken calls' := by
  induction calls with
  | nil => rfl
  | cons call calls ih =>
    cases call with
    | write offered n => rw [List.cons_append, taken, taken, ih, List.append_assoc]
    | flush => rw [List.cons_append, taken, taken, ih]

theorem write_arrives {d : Device} (h : d.behavior.Reliable) (s : Bytes) :
    ∃ d', d.write s = (d', .done s.length none) ∧ d'.behavior = d.behavior ∧
      d'.received = d.received ++ s := by
  obtain ⟨count, hdone, hle⟩ := h.1 (d.writes + 1) s.length
  refine ⟨{ d with writes := d.writes + 1, record := .write s s.length :: d.record }, ?_, rfl, ?_⟩
  · simp [write, hdone, Nat.min_eq_right hle]
  · simp [received, calls, taken_append, taken]

theorem flush_arrives {d : Device} (h : d.behavior.Reliable) :
    ∃ d' n, d.flush = (d', .done n none) ∧ d'.behavior = d.behavior ∧ d'.received = d.received := by
  obtain ⟨count, hdone⟩ := h.2 (d.flushes + 1)
  refine ⟨{ d with flushes := d.flushes + 1, record := .flush :: d.record }, count, ?_, rfl, ?_⟩
  · simp [flush, hdone]
  · simp [received, calls, taken_append, taken]

end Device

/-! ## Streams -/

namespace Stream

def buffer : Stream → Buffer
  | buffered _ b => b
  | _ => {}

/-- What the device of the stream got. -/
def received (s : Stream) : Bytes := s.device.received

/-- What the device of the stream got, and what it has yet to get. -/
def content (s : Stream) : Bytes := s.received ++ s.buffer.held

theorem flushBuffer_arrives {d : Device} {b : Buffer} (hd : d.behavior.Reliable)
    (hb : b.error = none) :
    ∃ d', flushBuffer d b = (d', {}, .done 0 none) ∧ d'.behavior = d.behavior ∧
      d'.received = d.received ++ b.held := by
  unfold flushBuffer
  obtain ⟨held, error⟩ := b
  cases hb
  by_cases hempty : held = []
  · subst hempty
    exact ⟨d, rfl, rfl, by simp⟩
  · obtain ⟨d', hwrite, hbehavior, hreceived⟩ := d.write_arrives hd held
    refine ⟨d', ?_, hbehavior, hreceived⟩
    simp [hempty, hwrite]

theorem passBuffer_arrives {d : Device} {b : Buffer} (hd : d.behavior.Reliable)
    (hb : b.error = none) {s : Bytes} {n : Nat} (hs : n < s.length) :
    ∃ d', passBuffer d b s = (d', b, .done s.length none) ∧ d'.behavior = d.behavior ∧
      d'.received = d.received ++ s := by
  obtain ⟨held, error⟩ := b
  cases hb
  obtain ⟨d', hwrite, hbehavior, hreceived⟩ := d.write_arrives hd s
  have hreplied : (d.write s).2 ≠ .done 0 none := by
    rw [hwrite]
    simp [List.ne_nil_of_length_pos (Nat.zero_lt_of_lt hs)]
  refine ⟨d', ?_, hbehavior, hreceived⟩
  rw [passBuffer, (Device.Ends.now hreplied).insist_eq]
  simp only [hwrite]

theorem fillBuffer_arrives {d : Device} {b : Buffer} (hd : d.behavior.Reliable)
    (hb : b.error = none) (s : Bytes) :
    ∃ d', fillBuffer d b s = (d', {}, .done 0 none) ∧ d'.behavior = d.behavior ∧
      d'.received = d.received ++ (b.held ++ s.take b.free) :=
  flushBuffer_arrives hd hb

theorem writeBuffer_arrives (direct : Bool) (d : Device) (b : Buffer) (s : Bytes) (count : Nat)
    (hd : d.behavior.Reliable) (hb : b.error = none) :
    ∃ d' b', writeBuffer direct d b s count = (d', b', .done (count + s.length) none) ∧
      b'.error = none ∧ d'.received ++ b'.held = d.received ++ b.held ++ s := by
  fun_induction writeBuffer direct d b s count with
  | case1 d b s count e he =>
    rw [hb] at he
    cases he
  | case2 d b s count _ hle => exact ⟨d, _, rfl, hb, by simp⟩
  | case3 d b s count _ hlong hdirect d' b' n hpass _ ih =>
    obtain ⟨d₁, hpass', hbehavior, hreceived⟩ := passBuffer_arrives hd hb (Nat.lt_of_not_le hlong)
    rw [hpass'] at hpass
    cases hpass
    obtain ⟨d₂, b₂, hwrite, herror, hcontent⟩ := ih (hbehavior ▸ hd) hb
    rw [List.drop_length] at hwrite hcontent
    refine ⟨d₂, b₂, ?_, herror, ?_⟩
    · rw [List.drop_length, hwrite]
      simp
    · -- A buffer is passed by only if it holds nothing.
      rw [hcontent, hreceived, hdirect.2]
      simp
  | case4 d b s count _ hlong _ d' b' n e hpass =>
    obtain ⟨d₁, hpass', -⟩ := passBuffer_arrives hd hb (Nat.lt_of_not_le hlong)
    rw [hpass'] at hpass
    cases hpass
  | case5 d b s count _ hlong _ d' b' message hpass =>
    obtain ⟨d₁, hpass', -⟩ := passBuffer_arrives hd hb (Nat.lt_of_not_le hlong)
    rw [hpass'] at hpass
    cases hpass
  | case6 d b s count _ _ _ d' b' n hfill _ ih =>
    obtain ⟨d₁, hfill', hbehavior, hreceived⟩ := fillBuffer_arrives hd hb s
    rw [hfill'] at hfill
    cases hfill
    obtain ⟨d₂, b₂, hwrite, herror, hcontent⟩ := ih (hbehavior ▸ hd) rfl
    refine ⟨d₂, b₂, ?_, herror, ?_⟩
    · rw [hwrite, Nat.add_assoc, ← List.length_append, List.take_append_drop]
    · rw [hcontent, hreceived]
      simp
  | case7 d b s count _ _ _ d' b' n e hfill =>
    obtain ⟨d₁, hfill', -⟩ := fillBuffer_arrives hd hb s
    rw [hfill'] at hfill
    cases hfill
  | case8 d b s count _ _ _ d' b' message hfill =>
    obtain ⟨d₁, hfill', -⟩ := fillBuffer_arrives hd hb s
    rw [hfill'] at hfill
    cases hfill

/-- The device takes all it is offered, and always did. -/
structure Works (s : Stream) : Prop where
  behavior : s.behavior.Reliable
  error : s.buffer.error = none

theorem Works.of_behavior {s s' : Stream} (h : s.Works) (hbehavior : s'.behavior = s.behavior)
    (herror : s'.buffer.error = none) : s'.Works :=
  ⟨hbehavior ▸ h.behavior, herror⟩

/-- The stream `s'` is `s` with a text added, which a buffer may hold back. -/
structure Gets (s : Stream) (text : Bytes) (s' : Stream) : Prop where
  works : s'.Works
  content : s'.content = s.content ++ text

theorem onBuffer_gets (direct : Bool) {d : Device} {b : Buffer} (h : (buffered d b).Works)
    (text : Bytes) :
    ∃ s', onBuffer (writeBuffer direct d b text 0) = (s', .done text.length none) ∧
      (buffered d b).Gets text s' := by
  have hanswers := writeBuffer_answers direct d b text 0
  obtain ⟨d', b', hwrite, herror, hcontent⟩ :=
    writeBuffer_arrives direct d b text 0 h.behavior h.error
  rw [hwrite] at hanswers
  exact ⟨buffered d' b', by rw [hwrite, onBuffer, Nat.zero_add],
    h.of_behavior hanswers.behavior herror, hcontent⟩

theorem write_gets {s : Stream} (h : s.Works) (text : Bytes) :
    ∃ s', s.write text = (s', .done text.length none) ∧ s.Gets text s' := by
  cases s with
  | flushing d =>
    obtain ⟨d', hwrite, hbehavior, hreceived⟩ := d.write_arrives h.behavior text
    refine ⟨flushing d', by simp only [write, hwrite], h.of_behavior hbehavior rfl, ?_⟩
    simpa [content, received, device, buffer] using hreceived
  | plain d =>
    obtain ⟨d', hwrite, hbehavior, hreceived⟩ := d.write_arrives h.behavior text
    refine ⟨plain d', by simp only [write, hwrite], h.of_behavior hbehavior rfl, ?_⟩
    simpa [content, received, device, buffer] using hreceived
  | buffered d b => exact onBuffer_gets true h text

theorem writeText_gets {s : Stream} (h : s.Works) (text : Bytes) :
    ∃ s', s.writeText text = (s', .done text.length none) ∧ s.Gets text s' := by
  cases s with
  | flushing d => exact write_gets h text
  | plain d => exact write_gets h text
  | buffered d b => exact onBuffer_gets false h text

theorem flush_gets {s : Stream} (h : s.Works) :
    ∃ s' n, s.flush = (s', .done n none) ∧ s'.buffer = {} ∧ s'.received = s.content := by
  cases s with
  | flushing d =>
    obtain ⟨d', n, hflush, -, hreceived⟩ := d.flush_arrives h.behavior
    refine ⟨flushing d', n, by simp only [flush, hflush], rfl, ?_⟩
    simpa [content, received, device, buffer] using hreceived
  | plain d => exact ⟨plain d, 0, rfl, rfl, (List.append_nil _).symm⟩
  | buffered d b =>
    obtain ⟨d', hflush, -, hreceived⟩ := @flushBuffer_arrives d b h.behavior h.error
    exact ⟨buffered d' {}, 0, by rw [flush, hflush, onBuffer], rfl, hreceived⟩

end Stream

/-! ## Output -/

namespace Output

def Works (o : Output) : Prop := ∀ stream ∈ o, stream.Works

/-- All streams get a text. -/
structure Gets (o : Output) (text : Bytes) (o' : Output) : Prop where
  works : o'.Works
  contents : o'.map Stream.content = o.map fun stream => stream.content ++ text

theorem Gets.cons {stream stream' : Stream} {o o' : Output} {text : Bytes}
    (h : stream.Gets text stream') (ho : o.Gets text o') :
    Gets (stream :: o) text (stream' :: o') where
  works := List.forall_mem_cons.2 ⟨h.works, ho.works⟩
  contents := by rw [List.map_cons, List.map_cons, h.content, ho.contents]

theorem gets_nil (text : Bytes) : Gets [] text [] :=
  ⟨by simp [Works], rfl⟩

theorem writeAll_gets {o : Output} (h : o.Works) (text : Bytes) :
    ∃ o', writeAll text o = (o', .done text.length none) ∧ o.Gets text o' := by
  induction o with
  | nil => exact ⟨[], rfl, gets_nil text⟩
  | cons stream o ih =>
    obtain ⟨hstream, ho⟩ := List.forall_mem_cons.1 h
    obtain ⟨stream', hwrite, hgets⟩ := Stream.write_gets hstream text
    obtain ⟨o', hrest, hgets'⟩ := ih ho
    exact ⟨stream' :: o', by simp only [writeAll, hwrite, hrest, if_true], Gets.cons hgets hgets'⟩

theorem write_gets {o : Output} (h : o.Works) (text : Bytes) :
    ∃ o', o.write text = (o', .done text.length none) ∧ o.Gets text o' := by
  unfold write
  split
  · rename_i stream
    obtain ⟨stream', hwrite, hgets⟩ := Stream.write_gets (h stream List.mem_cons_self) text
    exact ⟨[stream'], by rw [hwrite], Gets.cons hgets (gets_nil text)⟩
  · exact writeAll_gets h text

theorem writeText_gets {o : Output} (h : o.Works) (text : Bytes) :
    ∃ o', o.writeText text = (o', .done text.length none) ∧ o.Gets text o' := by
  unfold writeText
  split
  · rename_i stream
    obtain ⟨stream', hwrite, hgets⟩ := Stream.writeText_gets (h stream List.mem_cons_self) text
    exact ⟨[stream'], by rw [hwrite], Gets.cons hgets (gets_nil text)⟩
  · exact writeAll_gets h text

/-- After a flush, nothing is held back. -/
theorem flush_gets {o : Output} (h : o.Works) :
    ∃ o' n, o.flush = (o', .done n none) ∧ (∀ stream ∈ o', stream.buffer = {}) ∧
      o'.map Stream.received = o.map Stream.content := by
  induction o with
  | nil => exact ⟨[], 0, rfl, by simp, rfl⟩
  | cons stream o ih =>
    obtain ⟨hstream, ho⟩ := List.forall_mem_cons.1 h
    obtain ⟨stream', n, hflush, hbuffer, hreceived⟩ := Stream.flush_gets hstream
    obtain ⟨o', n', hrest, hbuffers, hcontents⟩ := ih ho
    refine ⟨stream' :: o', 0, by simp [flush, hflush, hrest], ?_, ?_⟩
    · exact List.forall_mem_cons.2 ⟨hbuffer, hbuffers⟩
    · rw [List.map_cons, List.map_cons, hreceived, hcontents]

end Output

/-! ## Sessions -/

namespace Session

/-- All devices of the session take what they are offered, nothing is held back from them, and the
log refuses no line. -/
structure Reliable (s : Session) : Prop where
  behaviors : ∀ stream ∈ s.output, stream.behavior.Reliable
  buffers : ∀ stream ∈ s.output, stream.buffer = {}
  trace : ∀ t ∈ s.trace, ∀ call line, t.refuses call line = none

/-- The session `t` has the devices and the log of `s`, and a text has arrived at every device. -/
structure Delivers (s : Session) (text : Bytes) (t : Session) : Prop where
  alike : s.Alike t
  buffers : ∀ stream ∈ t.output, stream.buffer = {}
  received : t.output.map Stream.received = s.output.map fun stream => stream.received ++ text

theorem Reliable.setMachine {s : Session} (h : s.Reliable) (m : Machine) :
    { s with machine := m }.Reliable :=
  ⟨h.behaviors, h.buffers, h.trace⟩

theorem Reliable.calm {s : Session} (h : s.Reliable) : s.Calm :=
  ⟨fun stream hstream => (h.behaviors stream hstream).calm, h.trace⟩

theorem Reliable.works {s : Session} (h : s.Reliable) : s.output.Works :=
  fun stream hstream => ⟨h.behaviors stream hstream, by rw [h.buffers stream hstream]⟩

theorem Reliable.content_eq {s : Session} (h : s.Reliable) (text : Bytes) :
    s.output.map (fun stream => stream.content ++ text) =
      s.output.map fun stream => stream.received ++ text := by
  refine List.map_congr_left fun stream hstream => ?_
  rw [Stream.content, h.buffers stream hstream, List.append_nil]

theorem Delivers.reliable {s t : Session} {text : Bytes} (h : s.Delivers text t)
    (hs : s.Reliable) : t.Reliable where
  behaviors := by
    intro stream hstream
    obtain ⟨stream', hstream', heq⟩ := h.alike.behavior_mem hstream
    rw [← heq]
    exact hs.behaviors stream' hstream'
  buffers := h.buffers
  trace := (h.alike.calm hs.calm).trace

/-- Nothing but the log has changed. -/
theorem Reliable.delivers {s t : Session} (h : s.Reliable) (halike : s.Alike t)
    (houtput : t.output = s.output) : s.Delivers [] t :=
  ⟨halike, by rw [houtput]; exact h.buffers, by simp [houtput]⟩

theorem Delivers.trans {s₁ s₂ s₃ : Session} {text text' : Bytes} (h : s₁.Delivers text s₂)
    (h' : s₂.Delivers text' s₃) : s₁.Delivers (text ++ text') s₃ where
  alike := h.alike.trans h'.alike
  buffers := h'.buffers
  received := by
    have hmap := congrArg (List.map (· ++ text')) h.received
    rw [List.map_map, List.map_map] at hmap
    rw [h'.received]
    simpa [Function.comp_def] using hmap

theorem Delivers.setMachine {s t : Session} {text : Bytes} (h : s.Delivers text t)
    (m m' : Machine) : { s with machine := m }.Delivers text { t with machine := m' } :=
  ⟨⟨h.alike.behaviors, h.alike.refusals⟩, h.buffers, h.received⟩

theorem flush_delivers {s : Session} (h : s.Reliable) :
    ∃ t, s.flush = (t, none) ∧ t.machine = s.machine ∧ s.Delivers [] t := by
  have halike := s.flush_serves.alike
  obtain ⟨o, n, hflush, hbuffers, hreceived⟩ := Output.flush_gets h.works
  rw [flush, hflush, afterCall] at halike ⊢
  refine ⟨_, rfl, rfl, halike, hbuffers, ?_⟩
  rw [hreceived]
  simpa using h.content_eq []

theorem halt_delivers {s : Session} (h : s.Reliable) (e : Error) :
    ∃ t, s.halt (some e) = (t, some (.halt (some e))) ∧ t.machine = s.machine ∧
      s.Delivers [] t := by
  obtain ⟨t, hhalt, hmachine, halike, houtput⟩ := s.halt_eq e
  obtain ⟨o, n, hflush, hbuffers, hreceived⟩ := Output.flush_gets h.works
  rw [hflush] at houtput
  refine ⟨t, hhalt, hmachine, halike, by rwa [houtput], ?_⟩
  rw [houtput, hreceived]
  simpa using h.content_eq []

/-- The call on the output that writes a text. -/
theorem write_call {s : Session} (h : s.Reliable) (text : Bytes) :
    ∃ o, (if Terminal.hasControl text then s.output.write (Terminal.encode text)
        else s.output.writeText text) = (o, .done (Terminal.encode text).length none) ∧
      s.output.Gets (Terminal.encode text) o := by
  by_cases hcontrol : Terminal.hasControl text
  · rw [if_pos hcontrol]
    exact Output.write_gets h.works _
  · rw [if_neg hcontrol, Terminal.encode, if_neg hcontrol]
    exact Output.writeText_gets h.works _

theorem write_delivers {s : Session} (h : s.Reliable) (text : Bytes) :
    ∃ t, s.write text = (t, none) ∧ t.machine = s.machine ∧
      s.Delivers (Terminal.encode text) t := by
  have halike := (s.write_serves text).alike
  obtain ⟨o, hcall, hgets⟩ := write_call h text
  obtain ⟨o', n, hflush, hbuffers, hreceived⟩ := Output.flush_gets hgets.works
  have hwrite : s.write text = ({ s with output := o' }, none) := by
    simp only [write, hcall, afterCall, flush, hflush]
  rw [hwrite] at halike ⊢
  refine ⟨_, rfl, rfl, halike, hbuffers, ?_⟩
  rw [hreceived, hgets.contents, h.content_eq]

theorem traceOp_delivers {s : Session} (h : s.Reliable) (op : Op) :
    ∃ t, s.traceOp op = (t, none) ∧ t.machine = s.machine ∧ s.Delivers [] t := by
  have hserves := s.traceOp_serves op
  refine ⟨(s.traceOp op).1, ?_, hserves.machine, h.delivers hserves.alike (s.traceOp_output op)⟩
  rw [← traceOp_calm h.calm op]

/-! ## Instructions -/

/-- A reliable session carries out an effect. -/
inductive Carried (s : Session) : Effect → Session × Option Abort → Prop
  | next {m : Machine} {t : Session} (hmachine : t.machine = m) (h : s.Delivers [] t) :
    Carried s (.next m) (t, none)
  | emit {text : Bytes} {m : Machine} {t : Session} (hmachine : t.machine = m.advance)
    (h : s.Delivers (Terminal.encode text) t) : Carried s (.emit text m) (t, none)
  | fault {f : Fault} {m : Machine} {t : Session} (hmachine : t.machine = m)
    (h : s.Delivers [] t) : Carried s (.fault f m) (t, some (.halt (some (.fault f))))
  | stuck {t : Session} (h : s.Delivers [] t) : Carried s .stuck (t, some (.panic .outOfRange))

theorem perform_carried {s : Session} (h : s.Reliable) (effect : Effect) :
    s.Carried effect (s.perform effect) := by
  have hself := h.delivers (.refl s) rfl
  cases effect with
  | next m => exact .next rfl (hself.setMachine s.machine m)
  | emit text m =>
    obtain ⟨t, hwrite, hmachine, hdelivers⟩ := write_delivers (h.setMachine m) text
    simp only [perform, hwrite, hmachine]
    exact .emit rfl (hdelivers.setMachine s.machine m.advance)
  | fault f m =>
    obtain ⟨t, hhalt, hmachine, hdelivers⟩ := halt_delivers (h.setMachine m) (.fault f)
    simp only [perform, hhalt]
    exact .fault hmachine (hdelivers.setMachine s.machine t.machine)
  | stuck => exact .stuck hself

theorem Carried.after {s t : Session} {effect : Effect} {ended : Session × Option Abort}
    (hs : s.Delivers [] t) (h : t.Carried effect ended) : s.Carried effect ended := by
  cases h with
  | next hmachine h => exact .next hmachine (hs.trans h)
  | emit hmachine h => exact .emit hmachine (hs.trans h)
  | fault hmachine h => exact .fault hmachine (hs.trans h)
  | stuck h => exact .stuck (hs.trans h)

theorem step_carried {s : Session} (h : s.Reliable) : s.Carried s.machine.step s.step := by
  rw [Machine.step, step]
  cases s.machine.fetch? with
  | none => exact .stuck (h.delivers (.refl s) rfl)
  | some op =>
    obtain ⟨t, htrace, hmachine, hdelivers⟩ := traceOp_delivers h op
    simp only [htrace]
    rw [← hmachine]
    exact .after hdelivers (perform_carried (hdelivers.reliable h) (op.run t.machine))

/-! ## Evaluations -/

theorem Carried.reliable {s : Session} {effect : Effect} {ended : Session × Option Abort}
    (h : s.Carried effect ended) (hs : s.Reliable) : ended.1.Reliable := by
  cases h with
  | next _ h => exact h.reliable hs
  | emit _ h => exact h.reliable hs
  | fault _ h => exact h.reliable hs
  | stuck h => exact h.reliable hs

theorem Reliable.of_output {s t : Session} (h : s.Reliable) (halike : s.Alike t)
    (houtput : t.output = s.output) : t.Reliable :=
  (h.delivers halike houtput).reliable h

theorem halt_reliable {s : Session} (h : s.Reliable) (e : Error) :
    (s.halt (some e)).1.Reliable := by
  obtain ⟨t, hhalt, -, hdelivers⟩ := halt_delivers h e
  rw [hhalt]
  exact hdelivers.reliable h

theorem loop_reliable {s : Session} (h : s.Reliable) (i : Interruption) (polls : Nat) :
    (s.loop i polls).1.Reliable := by
  fun_induction loop i polls s with
  | case1 s _ t hstep =>
    have ht := (step_carried h).reliable h
    rw [hstep] at ht
    exact halt_reliable ht _
  | case2 s _ t hstep polls ih =>
    have ht := (step_carried h).reliable h
    rw [hstep] at ht
    exact ih ht
  | case3 polls s _ _ => exact (step_carried h).reliable h
  | case4 polls s _ => exact h

theorem setIndent_reliable {s : Session} (h : s.Reliable) (indent : Bytes) :
    (s.setIndent indent).Reliable :=
  h.of_output (s.setIndent_alike indent) rfl

theorem finish_reliable {s : Session} (h : s.Reliable) (budget : Budget) :
    (s.finish budget).1.Reliable := by
  have hexec : (s.exec budget).1.Reliable :=
    setIndent_reliable (loop_reliable (setIndent_reliable h _) _ _) _
  unfold finish
  generalize s.exec budget = ended at hexec ⊢
  obtain ⟨t, _ | a⟩ := ended
  · obtain ⟨u, hflush, -, hdelivers⟩ := flush_delivers hexec
    simp only [hflush]
    exact hdelivers.reliable hexec
  · exact hexec

theorem load_reliable {s : Session} (h : s.Reliable) (src : Bytes) :
    (s.load src).1.Reliable := by
  unfold load
  generalize Draft.compile { symbols := s.machine.symbols, ops := s.machine.program.ops } src =
    compiled
  obtain ⟨d, result⟩ := compiled
  rcases s.announce_cases d.layouts.reverse with
    ⟨s', heq, hserves, houtput⟩ | ⟨_, _, _, _, _, hnot, _⟩
  · have hs' := h.of_output hserves.alike houtput
    simp only [heq]
    cases result with
    | error e => exact halt_reliable (hs'.setMachine _) _
    | ok program => exact hs'.setMachine _
  · exact absurd h.calm hnot

theorem eval_reliable {s : Session} (h : s.Reliable) (budget : Budget) (src : Bytes) :
    (s.eval budget src).1.Reliable := by
  have hrun : (s.run budget src).1.Reliable := by
    have hload := load_reliable h src
    unfold run
    generalize s.load src = loaded at hload ⊢
    obtain ⟨t, _ | a⟩ := loaded
    · exact finish_reliable hload budget
    · exact hload
  unfold eval conclude guarded
  generalize s.run budget src = ended at hrun ⊢
  obtain ⟨t, abort⟩ := ended
  simp only
  generalize abort.bind (Abort.recover (lit "VM")) = error
  cases error with
  | none => exact hrun
  | some e => exact hrun.setMachine _

theorem after_reliable {s : Session} (h : s.Reliable) (history : List (Budget × Bytes)) :
    (s.after history).Reliable := by
  induction history generalizing s with
  | nil => exact h
  | cons e history ih => exact ih (eval_reliable h e.1 e.2)

end Session

end StackLang
