import Mathlib
import StackLang.Proofs.Halting
import StackLang.Proofs.TwinSessions

/-!
# Tracing

A session with a log does what the same session does without one: every result is the same, and so
is everything that the devices are sent. The log of an evaluation has one line on every instruction
that is attempted, with a single tab in front. The tab is taken back however an evaluation ends, so
that evaluations that fail do not indent the lines of later ones.

* `Trace.Records`: the line on an instruction.
* `Session.attempts`, `Session.attempted`: the instructions that a run or a source attempts.
* `Session.Shadows`: the same operation without a log and with one.
* `Session.tracing_unobservable`: evaluations without a log and with one.
-/

namespace StackLang

/-! ## Logs -/

namespace Trace

/-- A line on an instruction, however far it is indented. -/
def isExec (line : Bytes) : Bool := (lit "exec @").isPrefixOf (line.dropWhile (· = 0x09))

/-- The line on an instruction, behind one tab, with the stacks that the instruction finds. The
instruction is filled up with spaces. -/
def Records (attempt : Machine × Op) (line : Bytes) : Prop :=
  ∃ n, line = lit "\texec @" ++ Decimal.ofInt attempt.1.pc ++ lit " " ++
    (attempt.2.format attempt.1.symbols ++ Bytes.spaces n) ++ lit " -- r:" ++
    attempt.1.formatCalls ++ lit " s:" ++ attempt.1.formatStack

/-- No line is refused, and lines are indented by a tab at most. -/
structure Ready (t : Trace) : Prop where
  refuses : ∀ call line, t.refuses call line = none
  indent : t.indent = [] ∨ t.indent = lit "\t"

/-- The log has gained lines, and those on instructions are on these. -/
structure Gains (t : Trace) (attempts : List (Machine × Op)) (t' : Trace) : Prop where
  refuses : t'.refuses = t.refuses
  indent : t'.indent = t.indent
  lines : ∃ new, t'.lines.toList = t.lines.toList ++ new ∧
    List.Forall₂ Records attempts (new.filter isExec)

variable {t t' : Trace} {attempts : List (Machine × Op)}

theorem Gains.refl (t : Trace) : t.Gains [] t := ⟨rfl, rfl, [], by simp, .nil⟩

theorem Gains.trans {t'' : Trace} {attempts' : List (Machine × Op)} (h : t.Gains attempts t')
    (h' : t'.Gains attempts' t'') : t.Gains (attempts ++ attempts') t'' := by
  obtain ⟨new, hlines, hexecs⟩ := h.lines
  obtain ⟨new', hlines', hexecs'⟩ := h'.lines
  refine ⟨h'.refuses.trans h.refuses, h'.indent.trans h.indent, new ++ new', ?_, ?_⟩
  · rw [hlines', hlines, List.append_assoc]
  · rw [List.filter_append]
    exact List.rel_append hexecs hexecs'

theorem Gains.ready (h : t.Gains attempts t') (ht : t.Ready) : t'.Ready where
  refuses := by
    rw [h.refuses]
    exact ht.refuses
  indent := by
    rw [h.indent]
    exact ht.indent

theorem Ready.isExec_indent (ht : t.Ready) (line : Bytes) :
    isExec (t.indent ++ line) = isExec line := by
  rcases ht.indent with hindent | hindent
  · rw [hindent, List.nil_append]
  · rw [hindent]
    rfl

theorem log_eq (ht : t.Ready) (line : Bytes) :
    t.log line =
      ({ t with calls := t.calls + 1, lines := t.lines.push (t.indent ++ line) }, none) := by
  simp [log, ht.refuses]

/-- A line that is not on an instruction. -/
theorem gains_line (ht : t.Ready) {line : Bytes} (h : isExec line = false) :
    t.Gains [] (t.log line).1 := by
  rw [log_eq ht]
  refine ⟨rfl, rfl, [t.indent ++ line], by simp, ?_⟩
  rw [List.filter_singleton, ht.isExec_indent, h]
  exact .nil

theorem column_eq (t : Trace) (text : Bytes) :
    ∃ width n, t.column text = ({ t with width }, text ++ Bytes.spaces n) := by
  unfold column
  split
  · exact ⟨t.width, _, rfl⟩
  · exact ⟨text.length, 0, by simp [Bytes.spaces]⟩

end Trace

namespace Session

/-! ## Instructions that are attempted -/

/-- The instructions that a run attempts, each with the machine it finds. The last one may fail. -/
def attempts (polls : Nat) (s : Session) : List (Machine × Op) :=
  if s.machine.running then
    (s.machine.fetch?.map (s.machine, ·)).toList ++
      match s.step with
      | (t, none) =>
        match polls with
        | 0 => []
        | polls + 1 => attempts polls t
      | _ => []
  else []

/-- The instructions that the evaluation of a source attempts. -/
def attempted (s : Session) (budget : Budget) (src : Bytes) : List (Machine × Op) :=
  match s.load src with
  | (t, none) => t.attempts budget.polls
  | _ => []

/-! ## Operations with and without a log -/

/-- The session with a log. -/
def traced (t : Trace) (s : Session) : Session := { s with trace := some t }

/-- An operation ended without a log, and the same operation with one: nothing else is different,
and the log has gained lines. -/
structure Shadows {α : Type} (t : Trace) (attempts : List (Machine × Op))
    (plain logged : Session × α) : Prop where
  untraced : plain.1.trace = none
  logged : ∃ t', logged = (plain.1.traced t', plain.2) ∧ t.Gains attempts t'

section

variable {s : Session} {t : Trace} {as as' : List (Machine × Op)}

/-- The same, whatever is reported of how it ended. -/
theorem Shadows.ending {α β : Type} {x x' : Session × α} (h : Shadows t as x x') (b : β) :
    Shadows t as (x.1, b) (x'.1, b) := by
  obtain ⟨huntraced, t', rfl, hgains⟩ := h
  exact ⟨huntraced, t', rfl, hgains⟩

theorem Shadows.behind {α : Type} {t' : Trace} {x x' : Session × α} (h : Shadows t' as' x x')
    (hgains : t.Gains as t') : Shadows t (as ++ as') x x' := by
  obtain ⟨huntraced, t'', heq, hgains'⟩ := h
  exact ⟨huntraced, t'', heq, hgains.trans hgains'⟩

/-- One operation after the other. -/
theorem Shadows.andThen {x x' : Session × Option Abort} {f : Session → Session × Option Abort}
    (h : Shadows t as x x')
    (hnext : ∀ u t', x = (u, none) → u.trace = none → t.Gains as t' →
      Shadows t' as' (f u) (f (u.traced t')))
    (habort : ∀ u a, x = (u, some a) → as' = []) :
    Shadows t (as ++ as') (andThen x f) (andThen x' f) := by
  obtain ⟨huntraced, t', rfl, hgains⟩ := h
  obtain ⟨u, _ | a⟩ := x
  · exact (hnext u t' rfl huntraced hgains).behind hgains
  · rw [habort u a rfl, List.append_nil]
    exact ⟨huntraced, t', rfl, hgains⟩

variable (hs : s.trace = none) (ht : t.Ready)

include hs in
theorem log_untraced (line : Bytes) : s.log line = (s, none) := by
  simp [log, hs]

include hs in
theorem setIndent_untraced (indent : Bytes) : s.setIndent indent = s := by
  rw [setIndent, hs, Option.map_none, ← hs]

include hs ht

theorem log_shadows {line : Bytes} (h : Trace.isExec line = false) :
    Shadows t [] (s.log line) ((s.traced t).log line) := by
  have hlogged : (s.traced t).log line = (s.traced (t.log line).1, none) := by
    simp [log, traced, Trace.log_eq ht]
  rw [log_untraced hs, hlogged]
  exact ⟨hs, _, rfl, Trace.gains_line ht h⟩

theorem halt_shadows (e : Option Error) : Shadows t [] (s.halt e) ((s.traced t).halt e) := by
  have houtput : (s.traced t).output = s.output := rfl
  simp only [halt, houtput]
  generalize s.output.flush = flushed
  obtain ⟨output, reply⟩ := flushed
  have hs : { s with output }.trace = none := hs
  exact (log_shadows hs ht rfl).ending _

theorem afterCall_shadows (called : Output × Reply) :
    Shadows t [] (s.afterCall called) ((s.traced t).afterCall called) := by
  obtain ⟨output, ⟨count, _ | e⟩ | message⟩ := called
  · exact ⟨hs, t, rfl, .refl t⟩
  · have hs : { s with output }.trace = none := hs
    exact halt_shadows hs ht _
  · exact ⟨hs, t, rfl, .refl t⟩

theorem write_shadows (text : Bytes) :
    Shadows t [] (s.write text) ((s.traced t).write text) := by
  have hcall := afterCall_shadows hs ht (s.send text)
  refine hcall.andThen ?_ ?_
  · intro u t' _ hu hgains
    exact afterCall_shadows hu (hgains.ready ht) _
  · intro _ _ _
    rfl

theorem perform_shadows (effect : Effect) :
    Shadows t [] (s.perform effect) ((s.traced t).perform effect) := by
  cases effect with
  | next m => exact ⟨hs, t, rfl, .refl t⟩
  | emit text m =>
    have hs : { s with machine := m }.trace = none := hs
    refine (write_shadows hs ht text).andThen ?_ ?_
    · intro u t' _ hu _
      exact ⟨hu, t', rfl, .refl t'⟩
    · intro _ _ _
      rfl
  | fault f m =>
    have hs : { s with machine := m }.trace = none := hs
    exact halt_shadows hs ht _
  | stuck => exact ⟨hs, t, rfl, .refl t⟩

/-! ### Loading -/

theorem announce_shadows (ls : List Layout) :
    Shadows t [] (s.announce ls) ((s.traced t).announce ls) := by
  induction ls generalizing t with
  | nil => exact ⟨hs, t, rfl, .refl t⟩
  | cons l ls ih =>
    have hline : Trace.isExec (lit "block @" ++ Decimal.ofNat l.start ++ lit " len " ++
        Decimal.ofNat l.length) = false := rfl
    obtain ⟨-, t', hlog, hgains⟩ := log_shadows hs ht hline
    rw [log_untraced hs] at hlog
    simp only [announce, log_untraced hs, hlog]
    exact (ih (hgains.ready ht)).behind hgains

theorem load_shadows (src : Bytes) : Shadows t [] (s.load src) ((s.traced t).load src) := by
  have hmachine : (s.traced t).machine = s.machine := rfl
  simp only [load, hmachine]
  generalize Draft.compile { symbols := s.machine.symbols, ops := s.machine.program.ops } src =
    compiled
  obtain ⟨d, result⟩ := compiled
  refine (announce_shadows hs ht d.layouts.reverse).andThen ?_ ?_
  · intro u t' _ hu hgains
    cases result with
    | error e =>
      have hu : (u.setSymbols d.symbols).trace = none := hu
      exact halt_shadows hu (hgains.ready ht) _
    | ok program => exact ⟨hu, t', rfl, .refl t'⟩
  · intro _ _ _
    rfl

/-! ### Running -/

theorem traceOp_shadows (htab : t.indent = lit "\t") (op : Op) :
    Shadows t [(s.machine, op)] (s.traceOp op) ((s.traced t).traceOp op) := by
  have hplain : s.traceOp op = (s, none) := by simp [traceOp, hs]
  obtain ⟨width, n, hcolumn⟩ := t.column_eq (op.format s.machine.symbols)
  have ht' : { t with width }.Ready := ⟨ht.refuses, ht.indent⟩
  rw [hplain, traceOp, traced]
  simp only [hcolumn, log, Trace.log_eq ht', Option.map_none]
  refine ⟨hs, _, rfl, rfl, rfl, _, Array.toList_push .., ?_⟩
  rw [List.filter_singleton, ht.isExec_indent, htab]
  refine .cons ⟨n, ?_⟩ .nil
  simp only [← List.append_assoc]
  rfl

theorem step_shadows (htab : t.indent = lit "\t") :
    Shadows t (s.machine.fetch?.map (s.machine, ·)).toList s.step (s.traced t).step := by
  have hmachine : (s.traced t).machine = s.machine := rfl
  rw [step, step, hmachine]
  cases s.machine.fetch? with
  | none => exact ⟨hs, t, rfl, .refl t⟩
  | some op =>
    refine (traceOp_shadows hs ht htab op).andThen ?_ ?_
    · intro u t' _ hu hgains
      exact perform_shadows hu (hgains.ready ht) _
    · intro _ _ _
      rfl

theorem loop_shadows (htab : t.indent = lit "\t") (i : Interruption) (polls : Nat) :
    Shadows t (s.attempts polls) (s.loop i polls) ((s.traced t).loop i polls) := by
  have hmachine : (s.traced t).machine = s.machine := rfl
  induction polls generalizing s t with
  | zero =>
    rw [attempts, loop, loop, hmachine]
    split
    · refine (step_shadows hs ht htab).andThen ?_ ?_
      · intro u t' hstep hu hgains
        simp only [hstep]
        exact halt_shadows hu (hgains.ready ht) _
      · intro u a hstep
        simp only [hstep]
    · exact ⟨hs, t, rfl, .refl t⟩
  | succ polls ih =>
    rw [attempts, loop, loop, hmachine]
    split
    · refine (step_shadows hs ht htab).andThen ?_ ?_
      · intro u t' hstep hu hgains
        simp only [hstep]
        exact ih hu (hgains.ready ht) (hgains.indent.trans htab) rfl
      · intro u a hstep
        simp only [hstep]
    · exact ⟨hs, t, rfl, .refl t⟩

theorem exec_shadows (hindent : t.indent = []) (budget : Budget) :
    Shadows t (s.attempts budget.polls) (s.exec budget) ((s.traced t).exec budget) := by
  have ht' : { t with indent := lit "\t" }.Ready := ⟨ht.refuses, .inr rfl⟩
  have hindented : (s.traced t).setIndent ((s.traced t).indent ++ lit "\t") =
      s.traced { t with indent := lit "\t" } := by
    show s.traced { t with indent := t.indent ++ lit "\t" } = _
    rw [hindent, List.nil_append]
  obtain ⟨hu, t', hloop, hgains⟩ := loop_shadows hs ht' rfl budget.interruption budget.polls
  rw [exec, exec, setIndent_untraced hs, hindented, hloop]
  generalize s.loop budget.interruption budget.polls = ended at hu ⊢
  obtain ⟨u, a⟩ := ended
  simp only [setIndent_untraced hu]
  exact ⟨hu, { t' with indent := t.indent }, rfl, hgains.refuses, rfl, hgains.lines⟩

theorem finish_shadows (hindent : t.indent = []) (budget : Budget) :
    Shadows t (s.attempts budget.polls) (s.finish budget) ((s.traced t).finish budget) := by
  have hexec := exec_shadows hs ht hindent budget
  rw [← List.append_nil (s.attempts budget.polls)]
  refine hexec.andThen ?_ ?_
  · intro u t' _ hu hgains
    exact afterCall_shadows hu (hgains.ready ht) _
  · intro _ _ _
    rfl

theorem run_shadows (hindent : t.indent = []) (budget : Budget) (src : Bytes) :
    Shadows t (s.attempted budget src) (s.run budget src) ((s.traced t).run budget src) := by
  rw [attempted]
  refine (load_shadows hs ht src).andThen ?_ ?_
  · intro u t' hload hu hgains
    simp only [hload]
    exact finish_shadows hu (hgains.ready ht) (hgains.indent.trans hindent) budget
  · intro u a hload
    simp only [hload]

theorem eval_shadows (hindent : t.indent = []) (budget : Budget) (src : Bytes) :
    Shadows t (s.attempted budget src) (s.eval budget src) ((s.traced t).eval budget src) := by
  obtain ⟨hu, t', hrun, hgains⟩ := run_shadows hs ht hindent budget src
  rw [eval, eval, hrun]
  generalize s.run budget src = ended at hu ⊢
  obtain ⟨u, abort⟩ := ended
  simp only [conclude, guarded]
  cases abort.bind (Abort.recover (lit "VM")) with
  | none => exact ⟨hu, t', rfl, hgains⟩
  | some e => exact ⟨hu, t', rfl, hgains⟩

theorem after_traced (hindent : t.indent = []) (history : List (Budget × Bytes)) :
    ∃ t', (s.traced t).after history = (s.after history).traced t' ∧
      (s.after history).trace = none ∧ t'.Ready ∧ t'.indent = [] := by
  induction history generalizing s t with
  | nil => exact ⟨t, rfl, hs, ht, hindent⟩
  | cons e history ih =>
    obtain ⟨hu, t', heval, hgains⟩ := eval_shadows hs ht hindent e.1 e.2
    obtain ⟨t'', hafter, h⟩ := ih hu (hgains.ready ht) (hgains.indent.trans hindent)
    refine ⟨t'', ?_, h⟩
    rw [after, List.foldl_cons, heval]
    exact hafter

end

/-- Whatever was evaluated before, a session evaluates a source with a log as it does without one:
the machine, the output, everything that devices were sent, and the error are the same. The log has
one line on each instruction that the source attempts, in their order. -/
theorem tracing_unobservable {s : Session} {t : Trace} (hs : s.trace = none)
    (hcalm : ∀ call line, t.refuses call line = none) (hindent : t.indent = [])
    (history : List (Budget × Bytes)) (budget : Budget) (src : Bytes) :
    ∃ t₁ t₂ new, (s.traced t).after history = (s.after history).traced t₁ ∧
      ((s.traced t).after history).eval budget src =
        (((s.after history).eval budget src).1.traced t₂, ((s.after history).eval budget src).2) ∧
      t₂.lines.toList = t₁.lines.toList ++ new ∧
      List.Forall₂ Trace.Records ((s.after history).attempted budget src)
        (new.filter Trace.isExec) := by
  obtain ⟨t₁, hafter, hs₁, ht₁, hindent₁⟩ := after_traced hs ⟨hcalm, .inl hindent⟩ hindent history
  obtain ⟨-, t₂, heval, hgains⟩ := eval_shadows hs₁ ht₁ hindent₁ budget src
  obtain ⟨new, hlines, hexecs⟩ := hgains.lines
  exact ⟨t₁, t₂, new, hafter, hafter ▸ heval, hlines, hexecs⟩

/-- A log, behind evaluations that end with a fault, with a source that is refused, and with an
interruption. The sixth instruction of the last one fails, too. -/
theorem tracing_unobservable_failures :
    ∃ s history t₁ t₂ new, s = Session.new {} [.output (some (.plain {}))] ∧
      history = [({ polls := 9 }, lit "1 0 /"), ({ polls := 9 }, lit "1 \x7d"),
        ({ polls := 0 }, lit "1 2")] ∧
      ((s.traced {}).after history).trace = some t₁ ∧
      (((s.traced {}).after history).eval { polls := 9 }
        (lit "\x7b 7 print \x7d exec nosuch 1")).1.trace = some t₂ ∧
      t₂.lines.toList = t₁.lines.toList ++ new ∧ (new.filter Trace.isExec).length = 6 := by
  have hs : (Session.new {} [.output (some (.plain {}))]).trace = none := by cbv
  have ht : ∀ call line, ({} : Trace).refuses call line = none := fun _ _ => rfl
  obtain ⟨t₁, t₂, new, hafter, heval, hlines, hexecs⟩ := tracing_unobservable hs ht rfl
    [({ polls := 9 }, lit "1 0 /"), ({ polls := 9 }, lit "1 \x7d"), ({ polls := 0 }, lit "1 2")]
    { polls := 9 } (lit "\x7b 7 print \x7d exec nosuch 1")
  refine ⟨_, _, t₁, t₂, new, rfl, rfl, ?_, ?_, hlines, ?_⟩
  · rw [hafter]
    rfl
  · rw [heval]
    rfl
  · rw [← hexecs.length_eq]
    cbv

end Session

end StackLang
