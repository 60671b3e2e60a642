import Mathlib
import StackLang.Proofs.Effects

/-!
# Errors that stop an evaluation

An evaluation is stopped with an error by a source that does not compile, by an instruction, by a
device or by the budget. From then on, all output is flushed and a line is logged. Devices may
report errors at that flush or panic, and the log may refuse the line; the error of the evaluation
is still the one that has stopped it.

* `Session.Advances`: instructions that are carried out one after the other.
* `Session.StepFails`, `Session.RunFails`: an instruction, or a run, is stopped with an error.
* `Session.Halts`: an evaluation is, and the session just before it halts.
* `Session.eval_error_iff_halts`: these are the errors of evaluations, panics apart.
-/

namespace StackLang.Session

/-! ## Where an evaluation is stopped -/

/-- A number of instructions are carried out, and none is stopped. -/
inductive Advances : Session → Nat → Session → Prop
  | refl (s : Session) : s.Advances 0 s
  | step {s t u : Session} {n : Nat} (hrunning : s.machine.running = true)
    (hstep : s.step = (t, none)) (h : t.Advances n u) : s.Advances (n + 1) u

/-- The call on the output that a text is written with. -/
def send (s : Session) (text : Bytes) : Output × Reply :=
  if Terminal.hasControl text then s.output.write (Terminal.encode text)
  else s.output.writeText text

/-- A text is written, and a device reports an error, either on the text or when it is flushed. -/
inductive WriteFails (s : Session) (text : Bytes) : Session → OutputError → Prop
  | send {output : Output} {count : Nat} {e : OutputError}
    (h : s.send text = (output, .done count (some e))) :
    s.WriteFails text { s with output := output } e
  | flush {output output' : Output} {count count' : Nat} {e : OutputError}
    (hsend : s.send text = (output, .done count none))
    (hflush : output.flush = (output', .done count' (some e))) :
    s.WriteFails text { s with output := output' } e

/-- The next instruction is stopped with an error: that of a fault, or of a device. -/
inductive StepFails (s : Session) : Session → Error → Prop
  | fault {op : Op} {t : Session} {f : Fault} {m : Machine} (hfetch : s.machine.fetch? = some op)
    (htrace : s.traceOp op = (t, none)) (hrun : op.run t.machine = .fault f m) :
    s.StepFails { t with machine := m } (.fault f)
  | output {op : Op} {t u : Session} {text : Bytes} {m : Machine} {e : OutputError}
    (hfetch : s.machine.fetch? = some op) (htrace : s.traceOp op = (t, none))
    (hrun : op.run t.machine = .emit text m)
    (hwrite : { t with machine := m }.WriteFails text u e) : s.StepFails u (.output e)

/-- A run is stopped with an error, by one of its instructions or by the budget. -/
inductive RunFails (s : Session) (i : Interruption) (polls : Nat) : Session → Error → Prop
  | step {n : Nat} {t u : Session} {e : Error} (hadvances : s.Advances n t) (hle : n ≤ polls)
    (hrunning : t.machine.running = true) (h : t.StepFails u e) : s.RunFails i polls u e
  | budget {t : Session} (hadvances : s.Advances (polls + 1) t) :
    s.RunFails i polls t (.interrupted i)

/-- The evaluation of a source is stopped with an error. The session is given as it is then, before
anything is done about the error. -/
inductive Halts (s : Session) (budget : Budget) (src : Bytes) : Session → Error → Prop
  | source {d : Draft} {e : ParseError} {t : Session}
    (hcompile : Draft.compile { symbols := s.machine.symbols, ops := s.machine.program.ops } src =
      (d, .error e))
    (hannounce : s.announce d.layouts.reverse = (t, none)) :
    s.Halts budget src (t.setSymbols d.symbols) (.fault (.parsing e))
  | run {t u : Session} {e : Error} (hload : s.load src = (t, none))
    (h : (t.setIndent (t.indent ++ lit "\t")).RunFails budget.interruption budget.polls u e) :
    s.Halts budget src u e
  | flush {t u : Session} {n count : Nat} {output : Output} {e : OutputError}
    (hload : s.load src = (t, none))
    (hadvances : (t.setIndent (t.indent ++ lit "\t")).Advances n u) (hle : n ≤ budget.polls)
    (hover : u.machine.running = false)
    (hflush : u.output.flush = (output, .done count (some e))) :
    s.Halts budget src { u with output := output } (.output e)

theorem StepFails.isPanic {s t : Session} {e : Error} (h : s.StepFails t e) :
    e.isPanic = false := by
  cases h <;> rfl

/-- None of these errors is that of a panic. -/
theorem Halts.isPanic {s t : Session} {budget : Budget} {src : Bytes} {e : Error}
    (h : s.Halts budget src t e) : e.isPanic = false := by
  cases h with
  | source => rfl
  | run _ h =>
    cases h with
    | step _ _ _ h => exact h.isPanic
    | budget => rfl
  | flush => rfl

/-! ## What happens then -/

/-- An operation was not aborted, or halted with one of these errors, or panicked. -/
inductive Stops (P : Error → Prop) : Option Abort → Prop
  | none : Stops P none
  | halt {e : Error} (h : P e) : Stops P (some (.halt (some e)))
  | panic (v : PanicValue) : Stops P (some (.panic v))

theorem Stops.imp {P Q : Error → Prop} {a : Option Abort} (h : Stops P a)
    (himp : ∀ e, P e → Q e) : Stops Q a := by
  cases h with
  | none => exact .none
  | halt h => exact .halt (himp _ h)
  | panic v => exact .panic v

theorem halt_abort (s : Session) (e : Error) : (s.halt (some e)).2 = some (.halt (some e)) := by
  obtain ⟨t, heq, -⟩ := s.halt_eq e
  rw [heq]

theorem halt_stops {P : Error → Prop} {e : Error} (s : Session) (h : P e) :
    Stops P (s.halt (some e)).2 := by
  rw [halt_abort]
  exact .halt h

/-- A line for the log is logged, or makes the session panic. -/
theorem log_stops (P : Error → Prop) (s : Session) (line : Bytes) : Stops P (s.log line).2 := by
  unfold log
  split
  · exact .none
  · rename_i t _
    generalize t.log line = logged
    obtain ⟨t', _ | message⟩ := logged
    · exact .none
    · exact .panic _

theorem traceOp_stops (P : Error → Prop) (s : Session) (op : Op) : Stops P (s.traceOp op).2 := by
  unfold traceOp
  split
  · exact .none
  · exact log_stops P _ _

theorem announce_stops (P : Error → Prop) (s : Session) (ls : List Layout) :
    Stops P (s.announce ls).2 := by
  induction ls generalizing s with
  | nil => exact .none
  | cons l ls ih =>
    rw [announce]
    have hlog := s.log_stops P
      (lit "block @" ++ Decimal.ofNat l.start ++ lit " len " ++ Decimal.ofNat l.length)
    generalize s.log _ = logged at hlog ⊢
    obtain ⟨t, _ | a⟩ := logged
    · exact ih t
    · exact hlog

/-! ### Output -/

theorem afterCall_stops (s : Session) (output : Output) (reply : Reply) :
    Stops (fun e => ∃ count e', reply = .done count (some e') ∧ e = .output e')
      (s.afterCall (output, reply)).2 := by
  rcases reply with ⟨count, _ | e⟩ | message
  · exact .none
  · exact halt_stops _ ⟨count, e, rfl, rfl⟩
  · exact .panic _

theorem afterCall_failed (s : Session) (output : Output) (count : Nat) (e : OutputError) :
    (s.afterCall (output, .done count (some e))).2 = some (.halt (some (.output e))) :=
  halt_abort _ _

/-- A text that all devices took is flushed at once. -/
theorem write_sent {s : Session} {text : Bytes} {output : Output} {count : Nat}
    (h : s.send text = (output, .done count none)) :
    s.write text = { s with output := output }.flush := by
  unfold send at h
  simp only [write, h, afterCall]

theorem write_failed {s : Session} {text : Bytes} {output : Output} {count : Nat} {e : OutputError}
    (h : s.send text = (output, .done count (some e))) :
    s.write text = { s with output := output }.halt (some (.output e)) := by
  unfold send at h
  obtain ⟨t, hhalt, -⟩ := { s with output := output }.halt_eq (.output e)
  simp only [write, h, afterCall, hhalt]

theorem write_stops (s : Session) (text : Bytes) :
    Stops (fun e => ∃ t e', s.WriteFails text t e' ∧ e = .output e') (s.write text).2 := by
  rcases hsend : s.send text with ⟨output, ⟨count, _ | e⟩ | message⟩
  · rcases hflush : output.flush with ⟨output', reply⟩
    have hstops := afterCall_stops { s with output := output } output' reply
    rw [write_sent hsend, flush, hflush]
    refine hstops.imp ?_
    rintro _ ⟨count', e, rfl, rfl⟩
    exact ⟨_, e, .flush hsend hflush, rfl⟩
  · rw [write_failed hsend]
    exact halt_stops _ ⟨_, e, .send hsend, rfl⟩
  · unfold send at hsend
    simp only [write, hsend, afterCall]
    exact .panic _

theorem WriteFails.write_halts {s t : Session} {text : Bytes} {e : OutputError}
    (h : s.WriteFails text t e) : (s.write text).2 = some (.halt (some (.output e))) := by
  cases h with
  | send hsend =>
    rw [write_failed hsend]
    exact halt_abort _ _
  | flush hsend hflush =>
    rw [write_sent hsend, Session.flush, hflush]
    exact afterCall_failed _ _ _ _

/-! ### Instructions -/

theorem step_stops (s : Session) : Stops (fun e => ∃ t, s.StepFails t e) s.step.2 := by
  unfold step
  cases hfetch : s.machine.fetch? with
  | none => exact .panic _
  | some op =>
    have htraced := s.traceOp_stops (fun e => ∃ t, s.StepFails t e) op
    simp only
    rcases htrace : s.traceOp op with ⟨t, _ | a⟩
    · simp only
      cases hrun : op.run t.machine with
      | next m => exact .none
      | emit text m =>
        have hwrite := write_stops { t with machine := m } text
        simp only [perform]
        generalize { t with machine := m }.write text = written at hwrite ⊢
        obtain ⟨u, _ | a⟩ := written
        · exact .none
        · refine hwrite.imp ?_
          rintro _ ⟨v, e, hfails, rfl⟩
          exact ⟨v, .output hfetch htrace hrun hfails⟩
      | fault f m => exact halt_stops _ ⟨_, .fault hfetch htrace hrun⟩
      | stuck => exact .panic _
    · rw [htrace] at htraced
      exact htraced

theorem StepFails.step_halts {s t : Session} {e : Error} (h : s.StepFails t e) :
    s.step.2 = some (.halt (some e)) := by
  cases h with
  | fault hfetch htrace hrun =>
    simp only [step, hfetch, htrace, hrun]
    exact halt_abort _ _
  | @output op u _ text m e hfetch htrace hrun hwrite =>
    have hhalts := hwrite.write_halts
    simp only [step, hfetch, htrace, hrun, perform]
    generalize { u with machine := m }.write text = written at hhalts ⊢
    obtain ⟨v, _ | a⟩ := written
    · cases hhalts
    · exact hhalts

/-! ### Runs -/

theorem RunFails.cons {s t u : Session} {i : Interruption} {polls : Nat} {e : Error}
    (hrunning : s.machine.running = true) (hstep : s.step = (t, none))
    (h : t.RunFails i polls u e) : s.RunFails i (polls + 1) u e := by
  cases h with
  | step hadvances hle hrunning' h =>
    exact .step (hadvances.step hrunning hstep) (Nat.succ_le_succ hle) hrunning' h
  | budget hadvances => exact .budget (hadvances.step hrunning hstep)

theorem loop_stops (s : Session) (i : Interruption) (polls : Nat) :
    Stops (fun e => ∃ t, s.RunFails i polls t e) (s.loop i polls).2 := by
  fun_induction loop i polls s with
  | case1 s hrunning t hstep =>
    exact halt_stops t ⟨t, .budget (.step hrunning hstep (.refl t))⟩
  | case2 s hrunning t hstep polls ih =>
    refine ih.imp ?_
    rintro e ⟨u, h⟩
    exact ⟨u, h.cons hrunning hstep⟩
  | case3 polls s hrunning hne =>
    refine s.step_stops.imp ?_
    rintro e ⟨t, h⟩
    exact ⟨t, .step (.refl s) (Nat.zero_le polls) hrunning h⟩
  | case4 polls s hrunning => exact .none

/-- Instructions that are carried out are the first ones of a run. -/
theorem Advances.loop_eq {s t : Session} {n : Nat} (h : s.Advances n t) (i : Interruption)
    (polls : Nat) : s.loop i (n + polls) = t.loop i polls := by
  induction h with
  | refl s => rw [Nat.zero_add]
  | step hrunning hstep h ih =>
    rw [Nat.add_right_comm, loop, if_pos hrunning, hstep]
    exact ih

theorem Advances.first {s t : Session} {n k : Nat} (h : s.Advances n t) (hk : k ≤ n) :
    ∃ u, s.Advances k u := by
  induction h generalizing k with
  | refl s =>
    obtain rfl : k = 0 := Nat.le_zero.1 hk
    exact ⟨s, .refl s⟩
  | @step s t u n hrunning hstep h ih =>
    cases k with
    | zero => exact ⟨s, .refl s⟩
    | succ k =>
      obtain ⟨v, hv⟩ := ih (Nat.le_of_succ_le_succ hk)
      exact ⟨v, .step hrunning hstep hv⟩

/-- The budget is polled after an instruction, even if it was the last one. -/
theorem Advances.loop_interrupted {s t : Session} {polls : Nat} (h : s.Advances (polls + 1) t)
    (i : Interruption) : s.loop i polls = t.halt (some (.interrupted i)) := by
  induction polls generalizing s with
  | zero =>
    cases h with
    | step hrunning hstep h =>
      cases h with
      | refl => rw [loop, if_pos hrunning, hstep]
  | succ polls ih =>
    cases h with
    | step hrunning hstep h =>
      rw [loop, if_pos hrunning, hstep]
      exact ih h

/-- A run that nothing stops carries out instructions up to the end of the program. -/
theorem advances_of_loop {s t : Session} {i : Interruption} {polls : Nat}
    (h : s.loop i polls = (t, none)) :
    ∃ n ≤ polls, s.Advances n t ∧ t.machine.running = false := by
  fun_induction loop i polls s with
  | case1 s hrunning u hstep =>
    have hhalt := u.halt_abort (.interrupted i)
    rw [h] at hhalt
    cases hhalt
  | case2 s hrunning u hstep polls ih =>
    obtain ⟨n, hle, hadvances, hover⟩ := ih h
    exact ⟨n + 1, Nat.succ_le_succ hle, hadvances.step hrunning hstep, hover⟩
  | case3 polls s hrunning hne => exact absurd h (hne t)
  | case4 polls s hrunning =>
    cases h
    exact ⟨0, Nat.zero_le polls, .refl _, by simpa using hrunning⟩

theorem Advances.loop_done {s t : Session} {n polls : Nat} (h : s.Advances n t)
    (hle : n ≤ polls) (hover : t.machine.running = false) (i : Interruption) :
    s.loop i polls = (t, none) := by
  rw [← Nat.add_sub_cancel' hle, h.loop_eq, loop, if_neg (by simp [hover])]

theorem RunFails.loop_halts {s t : Session} {i : Interruption} {polls : Nat} {e : Error}
    (h : s.RunFails i polls t e) : (s.loop i polls).2 = some (.halt (some e)) := by
  cases h with
  | @step n u _ _ hadvances hle hrunning h =>
    have hhalts := h.step_halts
    rw [← Nat.add_sub_cancel' hle, hadvances.loop_eq, loop, if_pos hrunning]
    generalize u.step = stepped at hhalts ⊢
    obtain ⟨v, _ | a⟩ := stepped
    · cases hhalts
    · exact hhalts
  | budget hadvances =>
    rw [hadvances.loop_interrupted]
    exact halt_abort _ _

/-! ### Evaluations -/

theorem load_stops (s : Session) (budget : Budget) (src : Bytes) :
    Stops (fun e => ∃ t, s.Halts budget src t e) (s.load src).2 := by
  unfold load
  rcases hcompile : Draft.compile { symbols := s.machine.symbols, ops := s.machine.program.ops } src
    with ⟨d, result⟩
  have hstops := s.announce_stops (fun e => ∃ t, s.Halts budget src t e) d.layouts.reverse
  simp only
  rcases hannounce : s.announce d.layouts.reverse with ⟨t, _ | a⟩
  · cases result with
    | error e => exact halt_stops _ ⟨_, .source hcompile hannounce⟩
    | ok program => exact .none
  · rw [hannounce] at hstops
    exact hstops

theorem finish_stops {s t : Session} {src : Bytes} (hload : s.load src = (t, none))
    (budget : Budget) : Stops (fun e => ∃ u, s.Halts budget src u e) (t.finish budget).2 := by
  have hloop := loop_stops (t.setIndent (t.indent ++ lit "\t")) budget.interruption budget.polls
  unfold finish exec
  rcases hended : (t.setIndent (t.indent ++ lit "\t")).loop budget.interruption budget.polls
    with ⟨u, _ | a⟩
  · obtain ⟨n, hle, hadvances, hover⟩ := advances_of_loop hended
    rcases hflush : u.output.flush with ⟨output, reply⟩
    have hstops := afterCall_stops (u.setIndent t.indent) output reply
    rw [← hflush] at hstops
    refine hstops.imp ?_
    rintro _ ⟨count, e, rfl, rfl⟩
    exact ⟨_, .flush hload hadvances hle hover hflush⟩
  · rw [hended] at hloop
    refine hloop.imp ?_
    rintro e ⟨v, h⟩
    exact ⟨v, .run hload h⟩

theorem run_stops (s : Session) (budget : Budget) (src : Bytes) :
    Stops (fun e => ∃ t, s.Halts budget src t e) (s.run budget src).2 := by
  have hstops := s.load_stops budget src
  unfold run
  rcases hload : s.load src with ⟨t, _ | a⟩
  · exact finish_stops hload budget
  · rw [hload] at hstops
    exact hstops

/-- An evaluation without an error is a run that nothing stops. -/
theorem run_of_eval {s t : Session} {budget : Budget} {src : Bytes}
    (h : s.eval budget src = (t, none)) : s.run budget src = (t, none) := by
  have hstops := s.run_stops budget src
  unfold eval conclude guarded at h
  generalize s.run budget src = ended at hstops h ⊢
  obtain ⟨u, a⟩ := ended
  cases hstops with
  | none =>
    cases h
    rfl
  | halt => cases h
  | panic => cases h

theorem Halts.run_halts {s t : Session} {budget : Budget} {src : Bytes} {e : Error}
    (h : s.Halts budget src t e) : (s.run budget src).2 = some (.halt (some e)) := by
  cases h with
  | @source d e u hcompile hannounce =>
    obtain ⟨v, hhalt, -⟩ := (u.setSymbols d.symbols).halt_eq (.fault (.parsing e))
    simp only [Session.run, load, hcompile, hannounce, hhalt]
  | @run u _ _ hload h =>
    have hhalts := h.loop_halts
    simp only [Session.run, hload, finish, exec]
    generalize (u.setIndent (u.indent ++ lit "\t")).loop budget.interruption budget.polls = ended
      at hhalts ⊢
    obtain ⟨v, _ | a⟩ := ended
    · cases hhalts
    · exact hhalts
  | @flush u v n count output e hload hadvances hle hover hflush =>
    have hloop := hadvances.loop_done hle hover budget.interruption
    simp only [Session.run, hload, finish, exec, hloop, Session.flush]
    rw [show (v.setIndent u.indent).output.flush = _ from hflush]
    exact afterCall_failed _ _ _ _

/-- The errors of evaluations, panics apart, are those that stop them. What the devices do at the
flush of a halt, and whether the log takes its line, makes no difference. -/
theorem eval_error_iff_halts (s : Session) (budget : Budget) (src : Bytes) (e : Error) :
    (s.eval budget src).2 = some e ∧ e.isPanic = false ↔ ∃ t, s.Halts budget src t e := by
  constructor
  · rintro ⟨heval, hpanic⟩
    have hstops := s.run_stops budget src
    unfold eval conclude guarded at heval
    generalize s.run budget src = ended at hstops heval
    obtain ⟨t, a⟩ := ended
    cases hstops with
    | none => cases heval
    | halt h =>
      cases heval
      exact h
    | panic v =>
      cases heval
      cases hpanic
  · rintro ⟨t, h⟩
    refine ⟨?_, h.isPanic⟩
    have hrun := h.run_halts
    unfold eval
    generalize s.run budget src = ended at hrun ⊢
    obtain ⟨u, a⟩ := ended
    obtain rfl : a = some (.halt (some e)) := hrun
    rfl

/-- A device that panics at every flush, and a log that refuses the line of a halt. -/
example : ((new (.of []) [.output (some (.flushing { behavior :=
      { write := fun _ offered => .done offered none, flush := fun _ => .panic (lit "gone") } })),
    .trace (some { refuses := fun _ line =>
      if (lit "\thalt").isPrefixOf line then some (lit "full") else none })]).eval { polls := 9 }
    (lit "1 0 /")).2 = some (.fault (.divideByZero 1)) := by
  cbv

end StackLang.Session
