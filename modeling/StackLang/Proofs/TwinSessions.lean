import StackLang.Proofs.Twins

/-!
# Twin sessions

Sessions that differ in the numbers of their names, in what their logs have recorded, and perhaps in
how their devices came to hold what they hold. Whatever such sessions evaluate, they give the same
results, and are such sessions again.

* `Trace.Twins`: logs that refuse the same lines from now on.
* `Coupling`: how the outputs of two sessions belong together; `Coupling.same`, `Coupling.reliable`.
* `Session.Twins`: twin sessions (`eval_twins`, `new_twins`).
* `Session.observe`, `Session.observations`: what is observed of a session after each evaluation.
-/

namespace StackLang

/-! ## Logs -/

namespace Trace

/-- The logs write lines alike, and refuse the same ones from now on. They may have been called
before, and have recorded other lines. -/
structure Twins (t t' : Trace) : Prop where
  refuses : ∀ k line, t.refuses (t.calls + k) line = t'.refuses (t'.calls + k) line
  indent : t.indent = t'.indent
  width : t.width = t'.width

theorem Twins.refl (t : Trace) : t.Twins t := ⟨fun _ _ => rfl, rfl, rfl⟩

theorem Twins.rel_self (t : Option Trace) : Option.Rel Twins t t := by
  cases t with
  | none => exact .none
  | some t => exact .some (.refl t)

variable {t t' : Trace} (h : t.Twins t')

include h

theorem Twins.setIndent (indent : Bytes) : Twins { t with indent } { t' with indent } :=
  ⟨h.refuses, rfl, h.width⟩

theorem Twins.column (text : Bytes) :
    (t.column text).1.Twins (t'.column text).1 ∧ (t.column text).2 = (t'.column text).2 := by
  simp only [Trace.column, h.width]
  split
  · exact ⟨h, rfl⟩
  · exact ⟨⟨h.refuses, h.indent, rfl⟩, rfl⟩

theorem Twins.log (line : Bytes) :
    (t.log line).1.Twins (t'.log line).1 ∧ (t.log line).2 = (t'.log line).2 := by
  have hrefuses :
      ∀ k line, t.refuses (t.calls + 1 + k) line = t'.refuses (t'.calls + 1 + k) line := by
    intro k line
    rw [Nat.add_assoc, Nat.add_assoc]
    exact h.refuses (1 + k) line
  simp only [Trace.log, h.indent, h.refuses 1]
  cases t'.refuses (t'.calls + 1) (t'.indent ++ line) with
  | some message => exact ⟨⟨hrefuses, rfl, h.width⟩, rfl⟩
  | none => exact ⟨⟨hrefuses, rfl, h.width⟩, rfl⟩

end Trace

/-! ## Outputs -/

/-- Calls on two outputs that ended alike: the outputs belong together by `R` if all went well, and
otherwise by `R'`. The numbers of bytes taken are not compared. -/
inductive Output.Agrees (R R' : Output → Output → Prop) : Output × Reply → Output × Reply → Prop
  | done {o o' : Output} (n n' : Nat) (h : R o o') : Agrees R R' (o, .done n none) (o', .done n' none)
  | failed {o o' : Output} (n n' : Nat) (e : OutputError) (h : R' o o') :
    Agrees R R' (o, .done n (some e)) (o', .done n' (some e))
  | panic {o o' : Output} (message : Bytes) (h : R' o o') :
    Agrees R R' (o, .panic message) (o', .panic message)

/-- How two outputs belong together, so that they answer every call alike. -/
structure Coupling where
  /-- Between two instructions. -/
  rest : Output → Output → Prop
  /-- Behind a write, before it is flushed. -/
  written : Output → Output → Prop
  written_of_rest : ∀ ⦃o o'⦄, rest o o' → written o o'
  write : ∀ ⦃o o'⦄, rest o o' → ∀ text, Output.Agrees written rest (o.write text) (o'.write text)
  writeText : ∀ ⦃o o'⦄, rest o o' → ∀ text,
    Output.Agrees written rest (o.writeText text) (o'.writeText text)
  flush : ∀ ⦃o o'⦄, written o o' → Output.Agrees rest rest o.flush o'.flush
  received : ∀ ⦃o o'⦄, rest o o' → o.map Stream.received = o'.map Stream.received

theorem Output.agrees_refl (called : Output × Reply) : Output.Agrees Eq Eq called called := by
  obtain ⟨o, reply⟩ := called
  cases reply with
  | done n error =>
    cases error with
    | none => exact .done n n rfl
    | some e => exact .failed n n e rfl
  | panic message => exact .panic message rfl

/-- The same output on both sides, whatever its devices do. -/
def Coupling.same : Coupling where
  rest := Eq
  written := Eq
  written_of_rest _ _ h := h
  write := by
    rintro o _ rfl text
    exact Output.agrees_refl _
  writeText := by
    rintro o _ rfl text
    exact Output.agrees_refl _
  flush := by
    rintro o _ rfl
    exact Output.agrees_refl _
  received := by
    rintro o _ rfl
    rfl

namespace Output

/-- All devices take what they are offered, and nothing is held back from them. -/
structure Settled (o : Output) : Prop where
  behaviors : ∀ stream ∈ o, stream.behavior.Reliable
  buffers : ∀ stream ∈ o, stream.buffer = {}

theorem Settled.works {o : Output} (h : o.Settled) : o.Works :=
  fun stream hstream => ⟨h.behaviors stream hstream, by rw [h.buffers stream hstream]⟩

theorem Settled.content_eq {o : Output} (h : o.Settled) :
    o.map Stream.content = o.map Stream.received := by
  refine List.map_congr_left fun stream hstream => ?_
  rw [Stream.content, h.buffers stream hstream, List.append_nil]

/-- A flush settles an output that works, and its devices get all that it holds. -/
theorem Works.flush {o : Output} (h : o.Works) :
    ∃ o' n, o.flush = (o', .done n none) ∧ o'.Settled ∧
      o'.map Stream.received = o.map Stream.content := by
  have hanswers := o.flush_answers
  obtain ⟨o', n, hflush, hbuffers, hreceived⟩ := flush_gets h
  rw [hflush] at hanswers
  refine ⟨o', n, hflush, ⟨fun stream hstream => ?_, hbuffers⟩, hreceived⟩
  have hmem : stream.behavior ∈ o.map Stream.behavior := by
    rw [← hanswers.behaviors]
    exact List.mem_map_of_mem hstream
  obtain ⟨stream', hstream', heq⟩ := List.mem_map.1 hmem
  rw [← heq]
  exact (h stream' hstream').behavior

/-- Devices that work, and have got the same or are to get the same. -/
structure SameContent (o o' : Output) : Prop where
  works : o.Works
  works' : o'.Works
  contents : o.map Stream.content = o'.map Stream.content

theorem Gets.sameContent {o o' o₁ o₁' : Output} (h : o.SameContent o') {text : Bytes}
    (hgets : o.Gets text o₁) (hgets' : o'.Gets text o₁') : o₁.SameContent o₁' where
  works := hgets.works
  works' := hgets'.works
  contents := by
    have hmap := congrArg (List.map (· ++ text)) h.contents
    rw [List.map_map, List.map_map] at hmap
    rw [hgets.contents, hgets'.contents]
    exact hmap

/-- Settled outputs whose devices have got the same. -/
structure SameReceived (o o' : Output) : Prop where
  settled : o.Settled
  settled' : o'.Settled
  received : o.map Stream.received = o'.map Stream.received

theorem SameReceived.sameContent {o o' : Output} (h : o.SameReceived o') : o.SameContent o' :=
  ⟨h.settled.works, h.settled'.works, by rw [h.settled.content_eq, h.settled'.content_eq, h.received]⟩

end Output

/-- Devices that take what they are offered, and have got the same, by whatever calls. -/
def Coupling.reliable : Coupling where
  rest := Output.SameReceived
  written := Output.SameContent
  written_of_rest _ _ h := h.sameContent
  write := by
    intro o o' h text
    obtain ⟨o₁, hwrite, hgets⟩ := Output.write_gets h.settled.works text
    obtain ⟨o₁', hwrite', hgets'⟩ := Output.write_gets h.settled'.works text
    rw [hwrite, hwrite']
    exact .done _ _ (Output.Gets.sameContent h.sameContent hgets hgets')
  writeText := by
    intro o o' h text
    obtain ⟨o₁, hwrite, hgets⟩ := Output.writeText_gets h.settled.works text
    obtain ⟨o₁', hwrite', hgets'⟩ := Output.writeText_gets h.settled'.works text
    rw [hwrite, hwrite']
    exact .done _ _ (Output.Gets.sameContent h.sameContent hgets hgets')
  flush := by
    intro o o' h
    obtain ⟨o₁, n, hflush, hsettled, hreceived⟩ := h.works.flush
    obtain ⟨o₁', n', hflush', hsettled', hreceived'⟩ := h.works'.flush
    rw [hflush, hflush']
    exact .done n n' ⟨hsettled, hsettled', by rw [hreceived, hreceived', h.contents]⟩
  received _ _ h := h.received

namespace Session

/-! ## Sessions -/

/-- The sessions differ in the numbers of names and in what was logged, and their outputs belong
together by `E`. -/
structure Twins (E : Output → Output → Prop) (s s' : Session) : Prop where
  machine : s.machine.Twins s'.machine
  output : E s.output s'.output
  retired : s.retired = s'.retired
  trace : Option.Rel Trace.Twins s.trace s'.trace

/-- Twins after the same operation, aborted alike if at all. -/
structure SameEnd (E : Output → Output → Prop) (x x' : Session × Option Abort) : Prop where
  twins : x.1.Twins E x'.1
  abort : x.2 = x'.2

variable {κ : Coupling} {E : Output → Output → Prop} {s s' : Session}

/-- One operation after the other, if the first is not aborted. -/
def andThen (x : Session × Option Abort) (f : Session → Session × Option Abort) :
    Session × Option Abort :=
  match x with
  | (t, none) => f t
  | aborted => aborted

theorem SameEnd.andThen {x x' : Session × Option Abort} (h : SameEnd E x x')
    {f f' : Session → Session × Option Abort}
    (hf : SameEnd E (f x.1) (f' x'.1)) : SameEnd E (andThen x f) (andThen x' f') := by
  obtain ⟨t, abort⟩ := x
  obtain ⟨t', abort'⟩ := x'
  obtain rfl : abort = abort' := h.abort
  cases abort with
  | none => exact hf
  | some a => exact h

theorem Twins.imp (h : s.Twins E s') {E' : Output → Output → Prop}
    (hE : E s.output s'.output → E' s.output s'.output) : s.Twins E' s' :=
  ⟨h.machine, hE h.output, h.retired, h.trace⟩

theorem Twins.setMachine (h : s.Twins E s') {m m' : Machine} (hm : m.Twins m') :
    Twins E { s with machine := m } { s' with machine := m' } :=
  ⟨hm, h.output, h.retired, h.trace⟩

theorem Twins.setOutput (h : s.Twins E s') {E' : Output → Output → Prop} {o o' : Output}
    (ho : E' o o') : Twins E' { s with output := o } { s' with output := o' } :=
  ⟨h.machine, ho, h.retired, h.trace⟩

theorem Twins.setTrace (h : s.Twins E s') {t t' : Trace} (ht : t.Twins t') :
    Twins E { s with trace := some t } { s' with trace := some t' } :=
  ⟨h.machine, h.output, h.retired, .some ht⟩

theorem Twins.trace_cases (h : s.Twins E s') :
    (s.trace = none ∧ s'.trace = none) ∨
      ∃ t t', s.trace = some t ∧ s'.trace = some t' ∧ t.Twins t' := by
  have htrace := h.trace
  generalize s.trace = t at htrace ⊢
  generalize s'.trace = t' at htrace ⊢
  cases htrace with
  | none => exact Or.inl ⟨rfl, rfl⟩
  | some ht => exact Or.inr ⟨_, _, rfl, rfl, ht⟩

theorem Twins.setIndent (h : s.Twins E s') (indent : Bytes) :
    (s.setIndent indent).Twins E (s'.setIndent indent) where
  machine := h.machine
  output := h.output
  retired := h.retired
  trace := by
    rcases h.trace_cases with ⟨ht, ht'⟩ | ⟨t, t', ht, ht', htwins⟩
    · rw [Session.setIndent, Session.setIndent, ht, ht']
      exact .none
    · rw [Session.setIndent, Session.setIndent, ht, ht']
      exact .some (htwins.setIndent indent)

theorem Twins.indent_eq (h : s.Twins E s') : s.indent = s'.indent := by
  rcases h.trace_cases with ⟨ht, ht'⟩ | ⟨t, t', ht, ht', htwins⟩
  · rw [indent, indent, ht, ht']
  · rw [indent, indent, ht, ht']
    exact htwins.indent

theorem log_twins (h : s.Twins E s') (line : Bytes) : SameEnd E (s.log line) (s'.log line) := by
  unfold log
  rcases h.trace_cases with ⟨ht, ht'⟩ | ⟨t, t', ht, ht', htwins⟩
  · rw [ht, ht']
    exact ⟨h, rfl⟩
  · rw [ht, ht']
    obtain ⟨hlog, hpanic⟩ := htwins.log line
    refine ⟨h.setTrace hlog, ?_⟩
    exact congrArg (Option.map fun message => Abort.panic (.text message)) hpanic

/-- A halt flushes the output, and reports what the flush reports if it has no error itself. -/
theorem halt_twins (h : s.Twins κ.written s') (e : Option Error) :
    SameEnd κ.rest (s.halt e) (s'.halt e) := by
  have hflush := κ.flush h.output
  unfold halt
  generalize s.output.flush = flushed at hflush ⊢
  generalize s'.output.flush = flushed' at hflush ⊢
  cases hflush with
  | done n n' ho => exact ⟨(log_twins (h.setOutput ho) _).twins, rfl⟩
  | failed n n' error ho => exact ⟨(log_twins (h.setOutput ho) _).twins, rfl⟩
  | panic message ho => exact ⟨(log_twins (h.setOutput ho) _).twins, rfl⟩

/-- Behind a call that all went well with, outputs belong together by `R`; after any other call, the
session is aborted. -/
theorem afterCall_twins {R : Output → Output → Prop} (h : s.Twins E s')
    {called called' : Output × Reply} (hcalled : Output.Agrees R κ.rest called called') :
    (∃ t t', s.afterCall called = (t, none) ∧ s'.afterCall called' = (t', none) ∧ t.Twins R t') ∨
      SameEnd κ.rest (s.afterCall called) (s'.afterCall called') ∧
        ∃ t a, s.afterCall called = (t, some a) := by
  cases hcalled with
  | done n n' ho => exact Or.inl ⟨_, _, rfl, rfl, h.setOutput ho⟩
  | failed n n' e ho =>
    obtain ⟨t, hhalt, -⟩ := halt_eq { s with output := _ } (.output e)
    exact Or.inr ⟨halt_twins (h.setOutput (κ.written_of_rest ho)) _, t, _, hhalt⟩
  | panic message ho => exact Or.inr ⟨⟨h.setOutput ho, rfl⟩, _, _, rfl⟩

theorem flush_twins (h : s.Twins κ.written s') : SameEnd κ.rest s.flush s'.flush := by
  rcases afterCall_twins h (κ.flush h.output) with ⟨t, t', heq, heq', htwins⟩ | ⟨hend, -⟩
  · rw [flush, flush, heq, heq']
    exact ⟨htwins, rfl⟩
  · exact hend

theorem write_twins (h : s.Twins κ.rest s') (text : Bytes) :
    SameEnd κ.rest (s.write text) (s'.write text) := by
  have hcall : Output.Agrees κ.written κ.rest
      (if Terminal.hasControl text then s.output.write (Terminal.encode text)
        else s.output.writeText text)
      (if Terminal.hasControl text then s'.output.write (Terminal.encode text)
        else s'.output.writeText text) := by
    split
    · exact κ.write h.output _
    · exact κ.writeText h.output _
  unfold write
  rcases afterCall_twins h hcall with ⟨t, t', heq, heq', htwins⟩ | ⟨hend, t, a, heq⟩
  · simp only [heq, heq']
    exact flush_twins htwins
  · rw [heq] at hend
    simp only [heq]
    generalize s'.afterCall _ = ended at hend ⊢
    obtain ⟨t', abort⟩ := ended
    obtain rfl : some a = abort := hend.abort
    exact hend

/-! ## Running -/

/-- Twins log an instruction alike. -/
theorem traceOp_twins (h : s.Twins E s') {op op' : Op}
    (hop : Op.Alike .same s.machine.symbols s'.machine.symbols op op') :
    SameEnd E (s.traceOp op) (s'.traceOp op') := by
  have hformat := hop.format Chart.same_fixes
  unfold traceOp
  rcases h.trace_cases with ⟨ht, ht'⟩ | ⟨t, t', ht, ht', htwins⟩
  · rw [ht, ht']
    exact ⟨h, rfl⟩
  · rw [ht, ht']
    obtain ⟨hcolumn, htext⟩ := htwins.column (op'.format s'.machine.symbols)
    simp only [hformat, h.machine.pc_eq, h.machine.formatCalls_eq, h.machine.formatStack_eq, htext]
    exact log_twins (h.setTrace hcolumn) _

theorem perform_twins (h : s.Twins κ.rest s') {vs : List Value} {effect effect' : Effect}
    (heffect : Effect.Parallel .same vs effect effect')
    (hkept : effect.Ensures s.machine.Preserves) (hkept' : effect'.Ensures s'.machine.Preserves) :
    SameEnd κ.rest (s.perform effect) (s'.perform effect') := by
  cases heffect with
  | next hm => exact ⟨h.setMachine (h.machine.preserved hkept hkept' hm), rfl⟩
  | @emit text text' m m' hm hadvance htext =>
    obtain rfl : text = text' := htext (Or.inl (Chart.starts_fixes Chart.same_fixes))
    have hwrite := write_twins (h.setMachine (h.machine.preserved hkept hkept' hm)) text
    have hmachine : ({ s with machine := m }.write text).1.machine = m := (write_idle _ _).machine
    have hmachine' : ({ s' with machine := m' }.write text).1.machine = m' :=
      (write_idle _ _).machine
    show SameEnd κ.rest
      (andThen ({ s with machine := m }.write text) fun t =>
        ({ t with machine := t.machine.advance }, none))
      (andThen ({ s' with machine := m' }.write text) fun t =>
        ({ t with machine := t.machine.advance }, none))
    refine hwrite.andThen ⟨hwrite.twins.setMachine ⟨?_, ?_, ?_⟩, rfl⟩
    · rw [hmachine, hmachine']
      exact hadvance
    · exact hwrite.twins.machine.entry
    · exact hwrite.twins.machine.size
  | fault hf hm =>
    rw [hf.eq_of_fixes Chart.same_fixes]
    exact halt_twins ((h.setMachine (h.machine.preserved hkept hkept' hm)).imp
      fun ho => κ.written_of_rest ho) _

theorem step_twins (h : s.Twins κ.rest s') : SameEnd κ.rest s.step s'.step := by
  unfold step
  cases hfetch : s.machine.fetch? with
  | none =>
    rw [h.machine.fetch_none hfetch]
    exact ⟨h, rfl⟩
  | some op =>
    obtain ⟨op', hfetch', hop, -⟩ := h.machine.parallel.fetch hfetch
    have htrace := traceOp_twins h hop
    rw [hfetch']
    show SameEnd κ.rest (andThen (s.traceOp op) fun t => t.perform (op.run t.machine))
      (andThen (s'.traceOp op') fun t => t.perform (op'.run t.machine))
    refine htrace.andThen ?_
    rw [← (s.traceOp_idle op).machine] at hfetch
    rw [← (s'.traceOp_idle op').machine] at hfetch'
    obtain ⟨op₁, hfetch₁, -, heffect⟩ := htrace.twins.machine.parallel.fetch hfetch
    rw [hfetch', Option.some.injEq] at hfetch₁
    subst hfetch₁
    exact perform_twins htrace.twins heffect (op.run_preserves _) (op'.run_preserves _)

theorem loop_twins (h : s.Twins κ.rest s') (i : Interruption) (polls : Nat) :
    SameEnd κ.rest (s.loop i polls) (s'.loop i polls) := by
  induction polls generalizing s s' with
  | zero =>
    unfold loop
    rw [h.machine.running_eq]
    split
    · have hstep := step_twins h
      show SameEnd κ.rest (andThen s.step fun t => t.halt (some (.interrupted i)))
        (andThen s'.step fun t => t.halt (some (.interrupted i)))
      exact hstep.andThen (halt_twins (hstep.twins.imp fun ho => κ.written_of_rest ho) _)
    · exact ⟨h, rfl⟩
  | succ polls ih =>
    unfold loop
    rw [h.machine.running_eq]
    split
    · have hstep := step_twins h
      show SameEnd κ.rest (andThen s.step (loop i polls)) (andThen s'.step (loop i polls))
      exact hstep.andThen (ih hstep.twins)
    · exact ⟨h, rfl⟩

theorem exec_twins (h : s.Twins κ.rest s') (budget : Budget) :
    SameEnd κ.rest (s.exec budget) (s'.exec budget) := by
  unfold exec
  rw [h.indent_eq]
  have hloop := loop_twins (h.setIndent (s'.indent ++ lit "\t")) budget.interruption budget.polls
  exact ⟨hloop.twins.setIndent _, hloop.abort⟩

theorem finish_twins (h : s.Twins κ.rest s') (budget : Budget) :
    SameEnd κ.rest (s.finish budget) (s'.finish budget) := by
  have hexec := exec_twins h budget
  show SameEnd κ.rest (andThen (s.exec budget) flush) (andThen (s'.exec budget) flush)
  exact hexec.andThen (flush_twins (hexec.twins.imp fun ho => κ.written_of_rest ho))

/-! ## Evaluating -/

/-- The registry of a session may grow, on either side. -/
theorem Twins.setSymbols (h : s.Twins E s') {r r' : Registry} (hr : s.machine.symbols.KeptBy r)
    (hr' : s'.machine.symbols.KeptBy r') (hdistinct : r.Distinct) (hdistinct' : r'.Distinct) :
    (s.setSymbols r).Twins E (s'.setSymbols r') :=
  h.setMachine (h.machine.setSymbols hr hr' hdistinct hdistinct')

/-- The names known when a block was laid out are at least those of the registry `r`. -/
def NamesFrom (r : Registry) (ls : List Layout) : Prop :=
  ∀ l ∈ ls, r.KeptBy l.symbols ∧ l.symbols.Distinct

theorem announce_twins (h : s.Twins E s') {ls ls' : List Layout}
    (hls : List.Forall₂ Draft.SameLayout ls ls') (hnames : NamesFrom s.machine.symbols ls)
    (hnames' : NamesFrom s'.machine.symbols ls') :
    SameEnd E (s.announce ls) (s'.announce ls') := by
  induction hls generalizing s s' with
  | nil => exact ⟨h, rfl⟩
  | @cons l l' ls ls' hl _ ih =>
    obtain ⟨⟨hkept, hdistinct⟩, hrest⟩ := List.forall_mem_cons.1 hnames
    obtain ⟨⟨hkept', hdistinct'⟩, hrest'⟩ := List.forall_mem_cons.1 hnames'
    unfold announce
    rw [hl.start, hl.length]
    have hlog := log_twins h
      (lit "block @" ++ Decimal.ofNat l'.start ++ lit " len " ++ Decimal.ofNat l'.length)
    have hidle := (s.log_idle
      (lit "block @" ++ Decimal.ofNat l'.start ++ lit " len " ++ Decimal.ofNat l'.length)).machine
    have hidle' := (s'.log_idle
      (lit "block @" ++ Decimal.ofNat l'.start ++ lit " len " ++ Decimal.ofNat l'.length)).machine
    generalize s.log _ = logged at hlog hidle ⊢
    generalize s'.log _ = logged' at hlog hidle' ⊢
    obtain ⟨t, abort⟩ := logged
    obtain ⟨t', abort'⟩ := logged'
    obtain rfl : abort = abort' := hlog.abort
    have ht : t.machine = s.machine := hidle
    have ht' : t'.machine = s'.machine := hidle'
    rw [← ht] at hkept hrest
    rw [← ht'] at hkept' hrest'
    cases abort with
    | none => exact ih hlog.twins hrest hrest'
    | some a => exact ⟨hlog.twins.setSymbols hkept hkept' hdistinct hdistinct', rfl⟩

theorem load_twins (h : s.Twins κ.rest s') (src : Bytes) :
    SameEnd κ.rest (s.load src) (s'.load src) := by
  have hparallel := h.machine.parallel
  obtain ⟨hkept, hdistinct, hlayouts⟩ := Draft.compile_grows
    { symbols := s.machine.symbols, ops := s.machine.program.ops } src
  obtain ⟨hkept', hdistinct', hlayouts'⟩ := Draft.compile_grows
    { symbols := s'.machine.symbols, ops := s'.machine.program.ops } src
  have hgrown := fun d program hd => @prefix_of_compile
    { symbols := s.machine.symbols, ops := s.machine.program.ops } d src program hd
  have hgrown' := fun d program hd => @prefix_of_compile
    { symbols := s'.machine.symbols, ops := s'.machine.program.ops } d src program hd
  obtain ⟨htwins, hresult⟩ := @Draft.compile_twins
    { symbols := s.machine.symbols, ops := s.machine.program.ops }
    { symbols := s'.machine.symbols, ops := s'.machine.program.ops } h.machine.code src
  unfold load
  generalize Draft.compile { symbols := s.machine.symbols, ops := s.machine.program.ops } src =
    compiled at hkept hdistinct hlayouts hgrown htwins hresult ⊢
  generalize Draft.compile { symbols := s'.machine.symbols, ops := s'.machine.program.ops } src =
    compiled' at hkept' hdistinct' hlayouts' hgrown' htwins hresult ⊢
  obtain ⟨d, result⟩ := compiled
  obtain ⟨d', result'⟩ := compiled'
  have hannounce := announce_twins h (List.rel_reverse htwins.layouts)
    (fun l hl => ((hlayouts l (List.mem_reverse.1 hl)).resolve_left (by simp)).imp_right
      fun hd => hd hparallel.distinct)
    (fun l hl => ((hlayouts' l (List.mem_reverse.1 hl)).resolve_left (by simp)).imp_right
      fun hd => hd hparallel.distinct')
  have hmachine := s.announce_cases d.layouts.reverse
  have hmachine' := s'.announce_cases d'.layouts.reverse
  simp only
  generalize s.announce d.layouts.reverse = announced at hannounce hmachine ⊢
  generalize s'.announce d'.layouts.reverse = announced' at hannounce hmachine' ⊢
  obtain ⟨t, abort⟩ := announced
  obtain ⟨t', abort'⟩ := announced'
  obtain rfl : abort = abort' := hannounce.abort
  cases abort with
  | some a => exact hannounce
  | none =>
    have ht : t.machine = s.machine := by
      rcases hmachine with ⟨u, heq, hserves, -⟩ | ⟨u, a, heq, -⟩
      · cases heq
        exact hserves.machine
      · cases heq
    have ht' : t'.machine = s'.machine := by
      rcases hmachine' with ⟨u, heq, hserves, -⟩ | ⟨u, a, heq, -⟩
      · cases heq
        exact hserves.machine
      · cases heq
    have hset : (t.setSymbols d.symbols).Twins κ.rest (t'.setSymbols d'.symbols) :=
      hannounce.twins.setSymbols (ht ▸ hkept) (ht' ▸ hkept') (hdistinct hparallel.distinct)
        (hdistinct' hparallel.distinct')
    cases hresult with
    | error e => exact halt_twins (hset.imp fun ho => κ.written_of_rest ho) _
    | @ok p p' hcode hentry =>
      have hm := hset.machine.parallel
      have hle : s.machine.program.ops.size ≤ p.ops.size := by
        simpa using (hgrown d p rfl).length_le
      have hle' : s'.machine.program.ops.size ≤ p'.ops.size := by
        simpa using (hgrown' d' p' rfl).length_le
      have hcalls : List.Forall₂ (Chart.same.Returns p.ops.size p'.ops.size)
          (t.setSymbols d.symbols).machine.calls.items
          (t'.setSymbols d'.symbols).machine.calls.items := by
        refine hm.calls.imp fun a a' hreturns => ?_
        have hlt : a < s.machine.program.ops.size := ht ▸ hreturns.inside
        have hlt' : a' < s'.machine.program.ops.size := ht' ▸ hreturns.inside'
        exact ⟨by omega, by omega, hreturns.stands⟩
      exact ⟨hset.setMachine ⟨⟨hm.distinct, hm.distinct', hcode.maps, hentry, hm.stack, hcalls,
        hm.loops, hm.words, hm.stackLimit, hm.callLimit⟩, hentry, by simpa using hcode.length_eq⟩,
        rfl⟩

theorem run_twins (h : s.Twins κ.rest s') (budget : Budget) (src : Bytes) :
    SameEnd κ.rest (s.run budget src) (s'.run budget src) := by
  have hload := load_twins h src
  show SameEnd κ.rest (andThen (s.load src) fun t => t.finish budget)
    (andThen (s'.load src) fun t => t.finish budget)
  exact hload.andThen (finish_twins hload.twins budget)

theorem Twins.reset (h : s.Twins E s') : s.reset.Twins E s'.reset := h.setMachine h.machine.reset

/-- Twins that evaluate the same source are twins again, and the error is the same. -/
theorem eval_twins (h : s.Twins κ.rest s') (budget : Budget) (src : Bytes) :
    (s.eval budget src).1.Twins κ.rest (s'.eval budget src).1 ∧
      (s.eval budget src).2 = (s'.eval budget src).2 := by
  have hrun := run_twins h budget src
  unfold eval conclude guarded
  generalize s.run budget src = ended at hrun ⊢
  generalize s'.run budget src = ended' at hrun ⊢
  obtain ⟨t, abort⟩ := ended
  obtain ⟨t', abort'⟩ := ended'
  obtain rfl : abort = abort' := hrun.abort
  simp only
  cases abort.bind (Abort.recover (lit "VM")) with
  | none => exact ⟨hrun.twins, rfl⟩
  | some e => exact ⟨hrun.twins.reset, rfl⟩

end Session

/-! ## Setting up -/

/-- Names of builtins are bound to the same routines, whatever names are known before. -/
theorem Machine.defineBuiltins_twins {m m' : Machine} (h : m.Twins m') :
    m.defineBuiltins.Twins m'.defineBuiltins := by
  unfold Machine.defineBuiltins
  generalize Builtin.all.zipIdx = l
  induction l generalizing m m' with
  | nil => exact h
  | cons e l ih =>
    rw [List.foldl_cons, List.foldl_cons]
    refine ih ?_
    have hnamed := h.parallel.intern (.ofWord e.1.name)
    have hwords := Entry.define_alike hnamed.distinct hnamed.distinct' hnamed.words
      (Registry.sameName_intern m.symbols m'.symbols (.ofWord e.1.name)) (.builtin e.2)
    exact ⟨⟨hnamed.distinct, hnamed.distinct', hnamed.program, hnamed.pc, hnamed.stack,
      hnamed.calls, hnamed.loops, hwords, hnamed.stackLimit, hnamed.callLimit⟩, h.entry, h.size⟩

namespace Session

/-- Settings do the same to sessions that differ in their registries only. -/
theorem foldl_apply_setSymbols (settings : List Setting) (s : Session) (r : Registry) :
    settings.foldl apply (s.setSymbols r) = (settings.foldl apply s).setSymbols r := by
  induction settings generalizing s with
  | nil => rfl
  | cons setting settings ih =>
    rw [List.foldl_cons, List.foldl_cons, ← ih]
    cases setting <;> rfl

/-- Sessions that are set up alike are twins, whatever names are known before. -/
theorem new_twins {E : Output → Output → Prop} {r r' : Registry} (hr : r.Distinct)
    (hr' : r'.Distinct) (settings : List Setting)
    (hE : E (new r settings).output (new r settings).output) :
    (new r settings).Twins E (new r' settings) := by
  have hsettings := fun r => foldl_apply_setSymbols settings {} r
  obtain ⟨a, b, hmachine⟩ := foldl_apply_machine settings {}
  have hempty : Machine.Twins { symbols := r, stackLimit := a, callLimit := b }
      { symbols := r', stackLimit := a, callLimit := b } :=
    ⟨⟨hr, hr', SameCode.maps .nil, rfl, .nil, .nil, .nil, .nil, rfl, rfl⟩, rfl, rfl⟩
  have hnew : ∀ r, new r settings =
      { settings.foldl apply {} with
        machine := Machine.defineBuiltins { symbols := r, stackLimit := a, callLimit := b } } := by
    intro r
    have hset := hsettings r
    simp only [setSymbols] at hset
    simp only [new]
    rw [hset, hmachine]
  rw [hnew r] at hE ⊢
  rw [hnew r']
  exact ⟨Machine.defineBuiltins_twins hempty, hE, rfl, Trace.Twins.rel_self _⟩

/-! ## Observations -/

/-- What is observed of a session after an evaluation. -/
structure Observation where
  error : Option Error
  stack : Bytes
  /-- What each device got that was ever attached. -/
  received : List Bytes
  program : List Bytes
  dump : Bytes
  pc : Int
  entry : Int

def observe (s : Session) (error : Option Error) : Observation where
  error := error
  stack := s.machine.formatStack
  received := s.streams.map Stream.received
  program := s.machine.program.ops.toList.map (Op.format s.machine.symbols)
  dump := s.machine.dump none
  pc := s.machine.pc
  entry := s.machine.program.entry

/-- What is observed after each of several evaluations. -/
def observations (s : Session) : List (Budget × Bytes) → List Observation
  | [] => []
  | (budget, src) :: rest =>
    let (t, error) := s.eval budget src
    t.observe error :: t.observations rest

theorem observations_cons (s : Session) (budget : Budget) (src : Bytes)
    (rest : List (Budget × Bytes)) :
    s.observations ((budget, src) :: rest) =
      (s.eval budget src).1.observe (s.eval budget src).2 ::
        (s.eval budget src).1.observations rest :=
  rfl

theorem Twins.observe_eq {κ : Coupling} {s s' : Session} (h : s.Twins κ.rest s')
    (error : Option Error) : s.observe error = s'.observe error := by
  have hreceived : s.streams.map Stream.received = s'.streams.map Stream.received := by
    rw [streams, streams, List.map_append, List.map_append, h.retired, κ.received h.output]
  rw [observe, observe, hreceived, h.machine.formatStack_eq, h.machine.formatProgram_eq,
    h.machine.dump_eq, h.machine.pc_eq, h.machine.entry]

/-- Twins cannot be told apart. -/
theorem Twins.observations_eq {κ : Coupling} {s s' : Session} (h : s.Twins κ.rest s')
    (evals : List (Budget × Bytes)) : s.observations evals = s'.observations evals := by
  induction evals generalizing s s' with
  | nil => rfl
  | cons e evals ih =>
    obtain ⟨htwins, herror⟩ := eval_twins h e.1 e.2
    rw [observations_cons, observations_cons, herror, htwins.observe_eq, ih htwins]

/-- Twins after the same evaluations. -/
theorem Twins.after {κ : Coupling} {s s' : Session} (h : s.Twins κ.rest s')
    (history : List (Budget × Bytes)) : (s.after history).Twins κ.rest (s'.after history) := by
  induction history generalizing s s' with
  | nil => exact h
  | cons e history ih => exact ih (eval_twins h e.1 e.2).1

end Session

end StackLang
