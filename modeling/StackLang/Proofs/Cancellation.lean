import Mathlib
import StackLang.Proofs.Framing

/-!
# Cancelled evaluations

Without a budget, an evaluation ends after some number of instructions, or it never does. A budget
of `n` polls makes no difference if that number is at most `n`. In every other case exactly `n + 1`
instructions are carried out, and then the evaluation is interrupted: the poll comes behind an
instruction, so one more is carried out than there are polls, and an instruction that fails is not
followed by any.

* `Session.Completes`: how an evaluation ends without a budget, and after how many instructions.
* `Session.advances_or_stands`: a run goes on for any number of instructions, or ends before.
* `Session.CutAfter`: an evaluation was interrupted after a number of instructions.
* `Session.eval_cancelled_exactly`: how an evaluation with a budget ends.
-/

namespace StackLang.Session

/-! ## Without a budget -/

/-- The evaluation of a source, if nothing interrupts it, carries out `k` instructions and then ends
like this. -/
inductive Completes (s : Session) (src : Bytes) : Nat → Session × Option Error → Prop
  /-- The source is refused, and nothing of it is run. -/
  | refused {t : Session} {a : Abort} (hload : s.load src = (t, some a)) :
    s.Completes src 0 (conclude (t, some a))
  /-- The run gets to the end of the program, and the output is flushed. -/
  | done {t u : Session} {k : Nat} (hload : s.load src = (t, none))
    (hadvances : (t.setIndent (t.indent ++ lit "\t")).Advances k u)
    (hover : u.machine.running = false) : s.Completes src k (conclude (u.setIndent t.indent).flush)
  /-- One more instruction is attempted, and aborted. -/
  | failed {t u v : Session} {a : Abort} {k : Nat} (hload : s.load src = (t, none))
    (hadvances : (t.setIndent (t.indent ++ lit "\t")).Advances k u)
    (hrunning : u.machine.running = true) (hstep : u.step = (v, some a)) :
    s.Completes src k (conclude (v.setIndent t.indent, some a))

/-- A run cannot go on: it is at the end of the program, or the next instruction is aborted. -/
inductive Stands (s : Session) : Prop
  | ends (hover : s.machine.running = false)
  | aborts {t : Session} {a : Abort} (hrunning : s.machine.running = true)
    (hstep : s.step = (t, some a))

theorem advances_or_stands (s : Session) (n : Nat) :
    (∃ t, s.Advances n t) ∨ ∃ k t, k < n ∧ s.Advances k t ∧ t.Stands := by
  induction n generalizing s with
  | zero => exact Or.inl ⟨s, .refl s⟩
  | succ n ih =>
    by_cases hrunning : s.machine.running = true
    · rcases hstep : s.step with ⟨t, _ | a⟩
      · rcases ih t with ⟨u, hu⟩ | ⟨k, u, hk, hu, hstands⟩
        · exact Or.inl ⟨u, hu.step hrunning hstep⟩
        · exact Or.inr ⟨k + 1, u, by omega, hu.step hrunning hstep, hstands⟩
      · exact Or.inr ⟨0, s, by omega, .refl s, .aborts hrunning hstep⟩
    · exact Or.inr ⟨0, s, by omega, .refl s, .ends (by simpa using hrunning)⟩

theorem Advances.trans {s t u : Session} {n m : Nat} (h : s.Advances n t) (h' : t.Advances m u) :
    s.Advances (n + m) u := by
  induction h with
  | refl s => rwa [Nat.zero_add]
  | step hrunning hstep _ ih =>
    rw [Nat.add_right_comm]
    exact .step hrunning hstep (ih h')

/-- A run that gets back to where it was goes on for ever. -/
theorem Advances.endless {s : Session} {c : Nat} (h : s.Advances (c + 1) s) (n : Nat) :
    ∃ t, s.Advances n t := by
  induction n using Nat.strongRecOn with
  | ind n ih =>
    by_cases hle : n ≤ c + 1
    · exact h.first hle
    · obtain ⟨t, ht⟩ := ih (n - (c + 1)) (by omega)
      have hagain := h.trans ht
      rw [Nat.add_sub_cancel' (by omega)] at hagain
      exact ⟨t, hagain⟩

section

variable {s t : Session} {src : Bytes} {k n : Nat} {result : Session × Option Error}

/-- A run that comes to a stand is the whole of an evaluation. -/
theorem Stands.completes {u : Session} (h : u.Stands) (hload : s.load src = (t, none))
    (hadvances : (t.setIndent (t.indent ++ lit "\t")).Advances k u) :
    ∃ result, s.Completes src k result := by
  cases h with
  | ends hover => exact ⟨_, .done hload hadvances hover⟩
  | aborts hrunning hstep => exact ⟨_, .failed hload hadvances hrunning hstep⟩

/-- An evaluation that carries out some instruction has loaded its source. -/
theorem Completes.advances (h : s.Completes src k result) (hn : n < k) :
    ∃ t u, s.load src = (t, none) ∧
      (t.setIndent (t.indent ++ lit "\t")).Advances (n + 1) u := by
  cases h with
  | refused => omega
  | done hload hadvances =>
    obtain ⟨u, hu⟩ := hadvances.first hn
    exact ⟨_, u, hload, hu⟩
  | failed hload hadvances =>
    obtain ⟨u, hu⟩ := hadvances.first hn
    exact ⟨_, u, hload, hu⟩

theorem advances_of_not_completes (h : ¬∃ k result, s.Completes src k result) (n : Nat) :
    ∃ t u, s.load src = (t, none) ∧ (t.setIndent (t.indent ++ lit "\t")).Advances n u := by
  rcases hload : s.load src with ⟨t, _ | a⟩
  · rcases advances_or_stands (t.setIndent (t.indent ++ lit "\t")) n with
      ⟨u, hu⟩ | ⟨k, u, -, hu, hstands⟩
    · exact ⟨t, u, rfl, hu⟩
    · obtain ⟨result, hresult⟩ := hstands.completes hload hu
      exact absurd ⟨k, result, hresult⟩ h
  · exact absurd ⟨0, _, .refused hload⟩ h

/-! ## With a budget -/

theorem exec_of_loop {budget : Budget} {u : Session} {a : Option Abort}
    (h : (t.setIndent (t.indent ++ lit "\t")).loop budget.interruption budget.polls = (u, a)) :
    t.exec budget = (u.setIndent t.indent, a) := by
  rw [exec, h]

/-- A budget that lasts makes no difference. -/
theorem Completes.eval_eq (h : s.Completes src k result) (hle : k ≤ n) (i : Interruption) :
    s.eval ⟨n, i⟩ src = result := by
  cases h with
  | refused hload => rw [eval, run, hload]
  | done hload hadvances hover =>
    rw [eval_of_load hload, finish, exec_of_loop (hadvances.loop_done hle hover i)]
  | @failed t u v a _ hload hadvances hrunning hstep =>
    have hloop : (t.setIndent (t.indent ++ lit "\t")).loop i n = (v, some a) := by
      rw [← Nat.add_sub_cancel' hle, hadvances.loop_eq, loop, if_pos hrunning, hstep]
    rw [eval_of_load hload, finish, exec_of_loop hloop]

theorem conclude_ne_interrupted {P : Error → Prop} {a : Option Abort} (h : Stops P a)
    (t : Session) (i : Interruption) (hP : ¬P (.interrupted i)) :
    (conclude (t, a)).2 ≠ some (.interrupted i) := by
  intro herror
  cases h with
  | none => cases herror
  | halt h =>
    cases herror
    exact hP h
  | panic v => cases herror

/-- Without a budget, nothing is interrupted. -/
theorem Completes.error_ne (h : s.Completes src k result) (i : Interruption) :
    result.2 ≠ some (.interrupted i) := by
  cases h with
  | @refused t a hload =>
    have hstops := s.load_stops ⟨0, i⟩ src
    rw [hload] at hstops
    refine conclude_ne_interrupted hstops t i ?_
    rintro ⟨u, hhalts⟩
    cases hhalts with
    | run hload' =>
      rw [hload] at hload'
      cases hload'
  | @done t u _ hload hadvances hover =>
    refine conclude_ne_interrupted (afterCall_stops (u.setIndent t.indent) _ _) _ i ?_
    rintro ⟨count, e, -, heq⟩
    cases heq
  | @failed t u v a _ hload hadvances hrunning hstep =>
    have hstops := u.step_stops
    rw [hstep] at hstops
    refine conclude_ne_interrupted hstops _ i ?_
    rintro ⟨w, hfails⟩
    cases hfails

/-! ## Interrupted evaluations -/

/-- The evaluation of a source was interrupted when exactly `n` of its instructions had been carried
out. With devices that take what they are offered, its output is that of these instructions. -/
structure CutAfter (s : Session) (src : Bytes) (i : Interruption) (n : Nat)
    (ended : Session × Option Error) : Prop where
  error : ended.2 = some (.interrupted i)
  carried : ∃ t u, s.load src = (t, none) ∧
    (t.setIndent (t.indent ++ lit "\t")).Advances n u ∧
    ended.1.machine = u.machine.reset ∧ ended.1.output = u.output.flush.1 ∧
    (s.Reliable → ∃ out, t.machine.Runs n out u.machine ∧ s.Delivers out ended.1)

theorem Advances.delivers {u : Session} (h : t.Advances n u) (ht : t.Reliable) :
    ∃ out, t.machine.Runs n out u.machine ∧ t.Delivers out u := by
  induction h with
  | refl t => exact ⟨[], .refl _, ht.delivers (.refl t) rfl⟩
  | step _ hstep _ ih =>
    obtain ⟨out, hgoes, hdelivers⟩ := goes_of_step ht hstep
    obtain ⟨out', hruns, hdelivers'⟩ := ih (hdelivers.reliable ht)
    exact ⟨out ++ out', .step hgoes hruns, hdelivers.trans hdelivers'⟩

/-- A source that is loaded does not touch the devices. -/
theorem load_delivers (hs : s.Reliable) (hload : s.load src = (t, none)) : s.Delivers [] t := by
  rcases s.load_changes src with ⟨t', a, hload', -⟩ | ⟨t', d, program, hload', -, haccepted⟩
  · rw [hload] at hload'
    cases hload'
  · rw [hload] at hload'
    cases hload'
    have hrefusals := congrArg (Option.map Trace.refuses) haccepted.trace
    rw [Option.map_map, Option.map_map] at hrefusals
    exact hs.delivers ⟨by rw [haccepted.output], hrefusals⟩ haccepted.output

theorem cutAfter_of_advances {u : Session} (hload : s.load src = (t, none))
    (hadvances : (t.setIndent (t.indent ++ lit "\t")).Advances (n + 1) u) (i : Interruption) :
    s.CutAfter src i (n + 1) (s.eval ⟨n, i⟩ src) := by
  obtain ⟨v, hhalt, hmachine, -, houtput⟩ := u.halt_eq (.interrupted i)
  have hloop := hadvances.loop_interrupted i
  rw [hhalt] at hloop
  have heval : s.eval ⟨n, i⟩ src = ((v.setIndent t.indent).reset, some (.interrupted i)) := by
    rw [eval_of_load hload, finish, exec_of_loop hloop]
    exact conclude_some rfl
  rw [heval]
  refine ⟨rfl, t, u, hload, hadvances, congrArg Machine.reset hmachine, houtput, ?_⟩
  intro hs
  have hloaded := load_delivers hs hload
  have ht := hloaded.reliable hs
  have hindent := ht.delivers (t.setIndent_alike (t.indent ++ lit "\t")) rfl
  obtain ⟨out, hruns, hdelivers⟩ := hadvances.delivers (hindent.reliable ht)
  have hu := hdelivers.reliable (hindent.reliable ht)
  obtain ⟨v', hhalt', -, hhalted⟩ := halt_delivers hu (.interrupted i)
  rw [hhalt] at hhalt'
  cases hhalt'
  have hlast := (hhalted.reliable hu).delivers (v.setIndent_alike t.indent) rfl
  have hall : s.Delivers out (v.setIndent t.indent) := by
    simpa using (((hloaded.trans hindent).trans hdelivers).trans hhalted).trans hlast
  exact ⟨out, hruns, hall.setMachine s.machine v.machine.reset⟩

end

/-- Let a source be evaluated with a budget of `n` polls. If the evaluation completes after `k`
instructions without a budget, with or without an error, it ends the same if and only if `k ≤ n`. If
`n < k`, or if the evaluation never completes, it is interrupted after exactly `n + 1`
instructions. -/
theorem eval_cancelled_exactly (s : Session) (src : Bytes) (i : Interruption) (n : Nat) :
    (∀ k result, s.Completes src k result →
      (s.eval ⟨n, i⟩ src = result ↔ k ≤ n) ∧ ((s.eval ⟨n, i⟩ src).2 = result.2 ↔ k ≤ n) ∧
      (n < k → s.CutAfter src i (n + 1) (s.eval ⟨n, i⟩ src))) ∧
    ((¬∃ k result, s.Completes src k result) →
      s.CutAfter src i (n + 1) (s.eval ⟨n, i⟩ src)) := by
  refine ⟨fun k result h => ?_, fun hnever => ?_⟩
  · have hcut : n < k → s.CutAfter src i (n + 1) (s.eval ⟨n, i⟩ src) := by
      intro hlt
      obtain ⟨t, u, hload, hadvances⟩ := h.advances hlt
      exact cutAfter_of_advances hload hadvances i
    have hlasts : (s.eval ⟨n, i⟩ src).2 = result.2 → k ≤ n := by
      intro hsame
      by_contra hlt
      have herror := (hcut (by omega)).error
      rw [hsame] at herror
      exact h.error_ne i herror
    have hends : k ≤ n → s.eval ⟨n, i⟩ src = result := fun hle => h.eval_eq hle i
    exact ⟨⟨fun heval => hlasts (by rw [heval]), hends⟩,
      ⟨hlasts, fun hle => by rw [hends hle]⟩, hcut⟩
  · obtain ⟨t, u, hload, hadvances⟩ := advances_of_not_completes hnever (n + 1)
    exact cutAfter_of_advances hload hadvances i

/-- A source whose fourth instruction fails, with just enough polls and with one too few; and a loop
that never ends, with any number of polls. -/
theorem eval_cancelled_exactly_endless : ∃ s result,
    s = (new (.of []) [.output (some (.buffered {} {}))]).after [({ polls := 9 }, lit "5")] ∧
    s.Completes (lit "7 print 0 /") 3 result ∧ result.2 = some (.fault (.divideByZero 7)) ∧
    s.eval ⟨3, .cancelled⟩ (lit "7 print 0 /") = result ∧
    s.CutAfter (lit "7 print 0 /") .cancelled 3 (s.eval ⟨2, .cancelled⟩ (lit "7 print 0 /")) ∧
    (s.eval ⟨2, .cancelled⟩ (lit "7 print 0 /")).1.output.map Stream.received = [lit "7"] ∧
    (¬∃ k result, s.Completes (lit "\x7b true \x7d \x7b \x7d while") k result) ∧
    ∀ n, s.CutAfter (lit "\x7b true \x7d \x7b \x7d while") .deadline (n + 1)
      (s.eval ⟨n, .deadline⟩ (lit "\x7b true \x7d \x7b \x7d while")) := by
  generalize hs : (new (.of []) [.output (some (.buffered {} {}))]).after
    [({ polls := 9 }, lit "5")] = s
  obtain ⟨result, hcompletes, herror⟩ : ∃ result, s.Completes (lit "7 print 0 /") 3 result ∧
      result.2 = some (.fault (.divideByZero 7)) := by
    rw [← hs]
    refine ⟨_, .failed (by cbv) (.step (by cbv) (by cbv) <| .step (by cbv) (by cbv) <|
      .step (by cbv) (by cbv) <| .refl _) (by cbv) (by cbv), by cbv⟩
  have hreceived : (s.eval ⟨2, .cancelled⟩ (lit "7 print 0 /")).1.output.map Stream.received =
      [lit "7"] := by
    rw [← hs]
    cbv
  obtain ⟨t, u, hload, hfirst, hround⟩ : ∃ t u : Session,
      s.load (lit "\x7b true \x7d \x7b \x7d while") = (t, none) ∧
      (t.setIndent (t.indent ++ lit "\t")).Advances 3 u ∧ u.Advances 7 u := by
    rw [← hs]
    refine ⟨_, _, by cbv, .step (by cbv) (by cbv) <| .step (by cbv) (by cbv) <|
      .step (by cbv) (by cbv) <| .refl _, ?_⟩
    exact .step (by cbv) (by cbv) <| .step (by cbv) (by cbv) <| .step (by cbv) (by cbv) <|
      .step (by cbv) (by cbv) <| .step (by cbv) (by cbv) <| .step (by cbv) (by cbv) <|
      .step (by cbv) (by cbv) <| .refl _
  have hnever : ¬∃ k result, s.Completes (lit "\x7b true \x7d \x7b \x7d while") k result := by
    rintro ⟨k, result, h⟩
    obtain ⟨v, hv⟩ := hround.endless k
    obtain ⟨w, hw⟩ := (hfirst.trans hv).first (show k + 1 ≤ 3 + k by omega)
    have herror := (cutAfter_of_advances hload hw .deadline).error
    rw [h.eval_eq (Nat.le_refl k) .deadline] at herror
    exact h.error_ne .deadline herror
  have hthird := (eval_cancelled_exactly s (lit "7 print 0 /") .cancelled 3).1 3 result hcompletes
  have hsecond := (eval_cancelled_exactly s (lit "7 print 0 /") .cancelled 2).1 3 result hcompletes
  exact ⟨s, result, rfl, hcompletes, herror, hthird.1.2 (Nat.le_refl 3),
    hsecond.2.2 (by omega), hreceived, hnever,
    fun n => (eval_cancelled_exactly s _ .deadline n).2 hnever⟩

end StackLang.Session
