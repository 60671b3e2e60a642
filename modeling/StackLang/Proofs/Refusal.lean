import Mathlib
import StackLang.Proofs.TwinSessions

/-!
# Sources that are refused

A source that does not compile may leave names behind, and lines in the log. No later result depends
on them: the session is as if its stacks had been cleared instead. Only the function behind the log
can tell, by counting its calls.

* `Trace.Steady`: a log whose function does not count its calls.
* `Session.Refused.twins`: a session that refused a source is a twin of what it was before, with a
  log that was called as often.
* `Session.refusal_leaves_no_trace`: whatever is evaluated later has the same results.
-/

namespace StackLang

/-! ## Logs -/

/-- Which lines are refused does not depend on the number of the call. -/
def Trace.Steady (t : Trace) : Prop := ∀ call call' line, t.refuses call line = t.refuses call' line

/-- Logs that differ in their records are twins if they were called as often, or if that makes no
difference. -/
theorem Trace.twins_of_unused {t u : Trace} (h : t.unused = u.unused) {calls : Nat}
    (hcalls : t.calls = calls ∨ u.Steady) : t.Twins { u with calls } := by
  have hrefuses : t.unused.refuses = u.unused.refuses := by rw [h]
  have hindent : t.unused.indent = u.unused.indent := by rw [h]
  have hwidth : t.unused.width = u.unused.width := by rw [h]
  refine ⟨?_, hindent, hwidth⟩
  intro k line
  rw [show t.refuses = u.refuses from hrefuses]
  rcases hcalls with rfl | hsteady
  · rfl
  · exact hsteady _ _ line

namespace Session

/-- How often the log was called. -/
def logCalls (s : Session) : Nat := (s.trace.map Trace.calls).getD 0

/-- The session with a log that was called so many times. -/
def setLogCalls (s : Session) (calls : Nat) : Session :=
  { s with trace := s.trace.map fun t => { t with calls } }

/-! ## Refusals -/

/-- Devices that take what they are offered are left with what they have got. -/
theorem Refused.sameReceived {s t : Session} (h : s.Refused t) (hs : s.output.Settled) :
    t.output.SameReceived s.output := by
  rcases h.output with houtput | houtput
  · rw [houtput]
    exact ⟨hs, hs, rfl⟩
  · obtain ⟨o, n, hflush, hsettled, hreceived⟩ := hs.works.flush
    rw [houtput, hflush]
    exact ⟨hsettled, hs, by rw [hreceived, hs.content_eq]⟩

theorem Refused.trace_twins {s t : Session} (h : s.Refused t) {calls : Nat}
    (hcalls : t.logCalls = calls ∨ ∀ u ∈ s.trace, u.Steady) :
    Option.Rel Trace.Twins t.trace (s.setLogCalls calls).trace := by
  have htrace := h.trace
  unfold setLogCalls
  cases hs : s.trace with
  | none =>
    rw [hs, Option.map_none, Option.map_eq_none_iff] at htrace
    rw [htrace]
    exact .none
  | some u =>
    rw [hs, Option.map_some] at htrace
    obtain ⟨t', ht, hunused⟩ := Option.map_eq_some_iff.1 htrace
    rw [ht]
    refine .some (Trace.twins_of_unused hunused (hcalls.imp ?_ fun hsteady => hsteady u hs))
    intro hcalls
    rwa [logCalls, ht] at hcalls

/-- What a refused source leaves makes no more difference than names and calls of the log do. -/
theorem Refused.twins {s t : Session} (h : s.Refused t) (hs : s.Twins Coupling.reliable.rest s)
    {calls : Nat} (hcalls : t.logCalls = calls ∨ ∀ u ∈ s.trace, u.Steady) :
    t.Twins Coupling.reliable.rest (s.setLogCalls calls) := by
  obtain ⟨r, hkept, hdistinct, hmachine⟩ := h.machine
  have hparallel := hs.machine.parallel
  refine ⟨?_, h.sameReceived hs.output.settled, h.retired, h.trace_twins hcalls⟩
  rw [hmachine]
  exact hs.machine.setSymbols hkept (.refl _) (hdistinct hparallel.distinct) hparallel.distinct

theorem setLogCalls_logCalls (s : Session) : s.setLogCalls s.logCalls = s := by
  obtain ⟨machine, output, retired, _ | t⟩ := s <;> rfl

/-- Take a session whose devices take what they are offered, with any limits and any log, and after
any evaluations. An evaluation of a source that does not compile fails, and all that is observed
later is what would be observed if the session had been reset instead, with its log called as often.
Those calls make no difference either, unless the function behind the log counts them. -/
theorem refusal_leaves_no_trace (names : List Name) (settings : List Setting)
    (hsinks : (new (.of names) settings).output.Settled) (history : List (Budget × Bytes))
    (s : Session) (hs : s = (new (.of names) settings).after history) (src : Bytes) (d : Draft)
    (e : ParseError)
    (hrefused : Draft.compile { symbols := s.machine.symbols, ops := s.machine.program.ops } src =
      (d, .error e))
    (budget : Budget) (later : List (Budget × Bytes)) :
    (s.eval budget src).2 ≠ none ∧
      (s.eval budget src).1.observations later =
        (s.reset.setLogCalls (s.eval budget src).1.logCalls).observations later ∧
      ((∀ t ∈ s.trace, t.Steady) →
        (s.eval budget src).1.observations later = s.reset.observations later) := by
  have hself : s.Twins Coupling.reliable.rest s := by
    have hnew := @new_twins Coupling.reliable.rest _ _ (Registry.distinct_of names)
      (Registry.distinct_of names) settings ⟨hsinks, hsinks, rfl⟩
    rw [hs]
    exact hnew.after history
  obtain ⟨T, σ, hrests⟩ := new_after_rests names settings history
  rw [← hs] at hrests
  rcases s.load_changes src with ⟨t, a, hload, hchanges⟩ | ⟨t, d', program, -, hcompile, -⟩
  · have heval : ∃ error, s.eval budget src = (t.reset, some error) := by
      rcases load_cases hrests.resting src with
        ⟨t', a', hload', -, -, -, ⟨error, herror, -⟩, -⟩ | ⟨t', tree, new, hload', -⟩
      · rw [hload] at hload'
        cases hload'
        exact ⟨error, by rw [eval, run, hload]; exact conclude_some herror⟩
      · rw [hload] at hload'
        cases hload'
    obtain ⟨error, heval⟩ := heval
    rw [heval]
    refine ⟨by simp, ((hchanges.twins hself (Or.inl rfl)).reset).observations_eq later, ?_⟩
    intro hsteady
    have htwins := @Refused.twins _ _ hchanges hself s.logCalls (Or.inr hsteady)
    rw [setLogCalls_logCalls] at htwins
    exact htwins.reset.observations_eq later
  · rw [hrefused] at hcompile
    cases hcompile

/-- A source that breaks off within a block has its names numbered and one block laid out; then a
word is defined under another number than it would have had, and run. -/
theorem refusal_leaves_no_trace_unclosed : ∃ s d e,
    s = (new (.of []) [.output (some (.buffered {} {})), .trace (some {})]).after
      [({ polls := 9 }, lit "1 2")] ∧
    Draft.compile { symbols := s.machine.symbols, ops := s.machine.program.ops }
      (lit "\x7b foo \x7d \x7b bar") = (d, .error e) ∧ s.machine.symbols.size + 2 = d.symbols.size ∧
    (s.eval { polls := 9 } (lit "\x7b foo \x7d \x7b bar")).2 ≠ none ∧
    (s.eval { polls := 9 } (lit "\x7b foo \x7d \x7b bar")).1.observations
        [({ polls := 9 }, lit "\x7b :bar print \x7d :baz def baz"),
          ({ polls := 9 }, lit "baz foo")] =
      s.reset.observations
        [({ polls := 9 }, lit "\x7b :bar print \x7d :baz def baz"),
          ({ polls := 9 }, lit "baz foo")] := by
  have hsinks : (new (.of []) [.output (some (.buffered {} {})),
      .trace (some {})]).output.Settled := by
    constructor <;> intro stream hstream <;>
      obtain rfl : stream = .buffered {} {} := by simpa [new, apply] using hstream
    · exact Behavior.reliable_faithful
    · rfl
  obtain ⟨s, d, e, hs, hcompile, hsize, hrefuses⟩ : ∃ s d e,
      s = (new (.of []) [.output (some (.buffered {} {})), .trace (some {})]).after
        [({ polls := 9 }, lit "1 2")] ∧
      Draft.compile { symbols := s.machine.symbols, ops := s.machine.program.ops }
        (lit "\x7b foo \x7d \x7b bar") = (d, .error e) ∧
      s.machine.symbols.size + 2 = d.symbols.size ∧
      s.trace.map Trace.refuses = some fun _ _ => none :=
    ⟨_, _, _, rfl, by cbv, by cbv, by cbv⟩
  have hsteady : ∀ t ∈ s.trace, t.Steady := by
    intro t ht call call' line
    rw [Option.mem_def.1 ht, Option.map_some, Option.some.injEq] at hrefuses
    rw [hrefuses]
  obtain ⟨herror, -, hlater⟩ := refusal_leaves_no_trace [] _ hsinks _ s hs _ d e hcompile
    { polls := 9 } [({ polls := 9 }, lit "\x7b :bar print \x7d :baz def baz"),
      ({ polls := 9 }, lit "baz foo")]
  exact ⟨s, d, e, hs, hcompile, hsize, herror, hlater hsteady⟩

/-- A log whose function panics at its third call. The next source takes two calls, so that it is
not carried out if a source was refused before. -/
example :
    let t : Trace := { refuses := fun call _ => if call = 3 then some (lit "full") else none }
    let s := new (.of []) [.trace (some t)]
    (((s.eval { polls := 9 } (lit "\x7d")).1.observations [({ polls := 9 }, lit "1")]).map
        fun o => o.error.isSome) = [true] ∧
      (s.reset.observations [({ polls := 9 }, lit "1")]).map (fun o => o.error.isSome) =
        [false] :=
  ⟨by cbv, by cbv⟩

end Session

end StackLang
