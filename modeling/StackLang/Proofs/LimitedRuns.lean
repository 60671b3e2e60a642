import Mathlib
import StackLang.Proofs.Invariants

/-!
# Limits only cut runs short

A session with limits runs a source just as it would without, up to the first instruction that takes
a stack over its limit. That one fails, and its failure is all that the limits bring about.

* `Session.limit`: the session with other limits.
* `Session.step_curbs`: what limits make of an instruction.
* `Session.Cuts`, `loop_cuts`: what they make of a run.
* `Session.limits_cut_short`: what they make of an evaluation.
-/

namespace StackLang.Session

/-- The session with other limits. -/
def limit (L c : Int) (s : Session) : Session := { s with machine := s.machine.limit L c }

/-! ## Output and log -/

section

variable (L c : Int) (s : Session)

@[simp] theorem limit_machine : (s.limit L c).machine = s.machine.limit L c := rfl

theorem halt_limit (e : Option Error) : (s.limit L c).halt e = (s.halt e).map (limit L c) id :=
  halt_mapMachine (fun m => m.limit L c) s e

theorem flush_limit : (s.limit L c).flush = s.flush.map (limit L c) id :=
  flush_mapMachine (fun m => m.limit L c) s

theorem write_limit (text : Bytes) :
    (s.limit L c).write text = (s.write text).map (limit L c) id :=
  write_mapMachine (fun m => m.limit L c) s text

theorem traceOp_limit (op : Op) :
    (s.limit L c).traceOp op = (s.traceOp op).map (limit L c) id := by
  obtain ⟨machine, output, retired, _ | trace⟩ := s
  · rfl
  · rfl

/-- Carrying out the same effect. -/
theorem perform_limit (effect : Effect) :
    (s.limit L c).perform (effect.map fun m => m.limit L c) =
      (s.perform effect).map (limit L c) id := by
  cases effect with
  | next m => rfl
  | emit text m =>
    have hwrite : { s.limit L c with machine := m.limit L c }.write text =
        ({ s with machine := m }.write text).map (limit L c) id :=
      write_limit L c { s with machine := m } text
    simp only [perform, Effect.map, hwrite]
    generalize { s with machine := m }.write text = written
    obtain ⟨t, _ | a⟩ := written
    · rfl
    · rfl
  | fault f m => exact halt_limit L c { s with machine := m } (some (.fault f))
  | stuck => rfl

theorem load_limit (src : Bytes) : (s.limit L c).load src = (s.load src).map (limit L c) id :=
  load_mapMachine (f := fun m => m.limit L c)
    ⟨fun _ => rfl, fun _ => rfl, fun _ _ => rfl, fun _ _ _ => rfl⟩ s src

end

/-! ## Instructions -/

/-- The session was halted because the next state, `t`, would have been above a limit. Definitions
and names are those of `t`, and nothing was written that was not written without limits. -/
structure Fails (L c : Int) (t : Session) (f : Fault) (u : Session) : Prop where
  exceeds : t.machine.Exceeds L c f
  machine : u.machine.reset = (t.machine.limit L c).reset
  output : u.output = t.output.flush.1

/-- What limits make of an instruction: it ends the same, or is halted. -/
inductive Curbs (L c : Int) : Session × Option Abort → Session × Option Abort → Prop
  | same {e : Session × Option Abort} (h : e.1.machine.fits L c) :
    Curbs L c e (e.map (limit L c) id)
  | fails {t u : Session} {f : Fault} (h : t.Fails L c f u) :
    Curbs L c (t, none) (u, some (.halt (some (.fault f))))

/-- The session has no limits. -/
structure Unlimited (s : Session) : Prop where
  stackLimit : s.machine.stackLimit = 0
  callLimit : s.machine.callLimit = 0

theorem Unlimited.machine_eq {s : Session} (h : s.Unlimited) : s.machine.limit 0 0 = s.machine := by
  obtain ⟨⟨symbols, program, pc, stack, calls, loops, words, a, b⟩, output, retired, trace⟩ := s
  obtain ⟨rfl, rfl⟩ := h
  rfl

theorem Unlimited.of_preserves {s t : Session} (h : s.Unlimited)
    (hpreserves : s.machine.Preserves t.machine) : t.Unlimited :=
  ⟨hpreserves.stackLimit.trans h.stackLimit, hpreserves.callLimit.trans h.callLimit⟩

section

variable {L c : Int} (hL : 0 < L) (hc : 0 < c) {s : Session}

include hL hc

theorem perform_curbs (hs : s.Unlimited) (hfits : s.machine.fits L c) (op : Op) :
    Curbs L c (s.perform (op.run s.machine))
      ((s.limit L c).perform (op.run (s.limit L c).machine)) := by
  have hcurbs := (op.run_intends s.machine).curbs (Int.le_of_lt hL) (Int.le_of_lt hc) hfits
  simp only [hs.machine_eq] at hcurbs
  rw [limit_machine]
  generalize op.run s.machine = effect at hcurbs ⊢
  generalize op.run (s.machine.limit L c) = effect' at hcurbs ⊢
  cases hcurbs with
  | same h =>
    rw [perform_limit]
    exact .same (perform_ensures (P := fun m => m.fits L c) (fun _ hm => hm) h hfits)
  | @exceeds m m' f h hreset =>
    obtain ⟨u, hhalt, hmachine, -, houtput⟩ := { s.limit L c with machine := m' }.halt_eq (.fault f)
    rw [perform, perform, hhalt]
    exact .fails ⟨h, hmachine ▸ hreset, houtput⟩

theorem step_curbs (hs : s.Unlimited) (hfits : s.machine.fits L c) :
    Curbs L c s.step (s.limit L c).step := by
  have hfetch : (s.limit L c).machine.fetch? = s.machine.fetch? := rfl
  unfold step
  rw [hfetch]
  cases s.machine.fetch? with
  | none => exact .same (e := (s, _)) hfits
  | some op =>
    have hidle := (s.traceOp_idle op).machine
    simp only [traceOp_limit]
    generalize s.traceOp op = traced at hidle ⊢
    obtain ⟨t, _ | a⟩ := traced
    · have ht : t.machine = s.machine := hidle
      rw [← ht] at hfits
      exact perform_curbs hL hc ⟨ht ▸ hs.stackLimit, ht ▸ hs.callLimit⟩ hfits op
    · refine .same (e := (t, some a)) ?_
      exact hidle ▸ hfits

end

/-! ## Runs -/

/-- What limits make of a run with the states `states`: it has the same states up to the first one
above a limit, and ends the same if there is none. -/
structure Cuts (L c : Int) (states : List Session) (ended : Session × Option Abort)
    (states' : List Session) (ended' : Session × Option Abort) : Prop where
  kept : states' = (states.takeWhile fun t => t.machine.fits L c).map (limit L c)
  whole : (∀ t ∈ states, t.machine.fits L c) → ended' = ended.map (limit L c) id
  short : ∀ t, states.find? (fun t => !t.machine.fits L c) = some t →
    ∃ f u, t.Fails L c f u ∧ ended' = (u, some (.halt (some (.fault f))))

section

variable {L c : Int} {s t u : Session} {states states' : List Session}
  {ended ended' : Session × Option Abort}

/-- A run that ends where it stands. -/
theorem cuts_stop (hfits : s.machine.fits L c) (ended : Session × Option Abort) :
    Cuts L c [s] ended [s.limit L c] (ended.map (limit L c) id) where
  kept := by simp [hfits]
  whole _ := rfl
  short t ht := by simp [hfits] at ht

/-- A run that cannot go on because of a limit. -/
theorem cuts_short {f : Fault} (hfits : s.machine.fits L c) (h : t.Fails L c f u)
    (rest : List Session) (ended : Session × Option Abort) :
    Cuts L c (s :: t :: rest) ended [s.limit L c] (u, some (.halt (some (.fault f)))) := by
  have hover : t.machine.fits L c = false := h.exceeds.not_fits
  refine ⟨?_, ?_, ?_⟩
  · simp [hfits, hover]
  · intro hall
    have ht := hall t (by simp)
    rw [hover] at ht
    cases ht
  · intro t' ht'
    obtain rfl : t = t' := by simpa [hfits, hover] using ht'
    exact ⟨f, u, h, rfl⟩

/-- One more state that is within the limits. -/
theorem Cuts.cons (hfits : s.machine.fits L c) (h : Cuts L c states ended states' ended') :
    Cuts L c (s :: states) ended (s.limit L c :: states') ended' where
  kept := by
    rw [List.takeWhile_cons, if_pos hfits, List.map_cons, h.kept]
  whole hall := h.whole fun t ht => hall t (List.mem_cons_of_mem _ ht)
  short t ht := by
    refine h.short t ?_
    rwa [List.find?_cons_of_neg (by simp [hfits])] at ht

end

section

variable {L c : Int} (hL : 0 < L) (hc : 0 < c) {s : Session}

include hL hc

theorem loop_cuts (hs : s.Unlimited) (hfits : s.machine.fits L c) (i : Interruption)
    (polls : Nat) :
    Cuts L c (s.passes polls) (s.loop i polls) ((s.limit L c).passes polls)
      ((s.limit L c).loop i polls) := by
  fun_induction loop i polls s with
  | case1 s hrunning t hstep =>
    have hrunning' : (s.limit L c).machine.running = true := hrunning
    have hcurbs := step_curbs hL hc hs hfits
    rw [passes, if_pos hrunning, passes, if_pos hrunning', loop, if_pos hrunning']
    rw [hstep] at hcurbs ⊢
    generalize (s.limit L c).step = stepped at hcurbs ⊢
    cases hcurbs with
    | same h =>
      have hhalt := halt_limit L c t (some (.interrupted i))
      simp only [Prod.map, id, hhalt]
      exact (cuts_stop h _).cons hfits
    | fails h => exact cuts_short hfits h [] _
  | case2 s hrunning t hstep polls ih =>
    have hrunning' : (s.limit L c).machine.running = true := hrunning
    have hcurbs := step_curbs hL hc hs hfits
    have hpreserves := s.step_preserves.machine
    generalize t.loop i polls = ended at ih ⊢
    rw [passes, if_pos hrunning, passes, if_pos hrunning', loop, if_pos hrunning']
    rw [hstep] at hcurbs hpreserves ⊢
    generalize (s.limit L c).step = stepped at hcurbs ⊢
    cases hcurbs with
    | same h => exact (ih (hs.of_preserves hpreserves) h).cons hfits
    | fails h =>
      obtain ⟨rest, hrest⟩ := t.passes_head polls
      simp only [hrest]
      exact cuts_short hfits h rest _
  | case3 polls s hrunning hne =>
    have hrunning' : (s.limit L c).machine.running = true := hrunning
    have hcurbs := step_curbs hL hc hs hfits
    rw [passes, if_pos hrunning, passes, if_pos hrunning', loop, if_pos hrunning']
    generalize (s.limit L c).step = stepped at hcurbs ⊢
    generalize s.step = ended at hcurbs hne ⊢
    cases hcurbs with
    | same h =>
      obtain ⟨t, _ | a⟩ := ended
      · exact (hne t rfl).elim
      · exact cuts_stop hfits (t, some a)
    | @fails t => exact (hne t rfl).elim
  | case4 polls s hrunning =>
    have hrunning' : ¬(s.limit L c).machine.running = true := hrunning
    rw [passes, if_neg hrunning, passes, if_neg hrunning', loop, if_neg hrunning']
    exact cuts_stop hfits (s, none)

/-- The states of a run, and how it ends after the output was flushed. -/
theorem finish_cuts (hs : s.Unlimited) (hfits : s.machine.fits L c) (budget : Budget) :
    Cuts L c ((s.setIndent (s.indent ++ lit "\t")).passes budget.polls) (s.finish budget)
      (((s.limit L c).setIndent (s.indent ++ lit "\t")).passes budget.polls)
      ((s.limit L c).finish budget) := by
  have hloop := loop_cuts (s := s.setIndent (s.indent ++ lit "\t")) hL hc
    ⟨hs.stackLimit, hs.callLimit⟩ hfits budget.interruption budget.polls
  refine ⟨hloop.kept, ?_, ?_⟩
  · intro hall
    have hwhole := hloop.whole hall
    have hexec : (s.limit L c).exec budget = (s.exec budget).map (limit L c) id :=
      congrArg (Prod.map (setIndent · s.indent) id) hwhole
    rw [finish, finish, hexec]
    generalize s.exec budget = ended
    obtain ⟨t, _ | a⟩ := ended
    · exact flush_limit L c t
    · rfl
  · intro t ht
    obtain ⟨f, u, hfails, hshort⟩ := hloop.short t ht
    have hexec : (s.limit L c).exec budget =
        (u.setIndent s.indent, some (.halt (some (.fault f)))) :=
      congrArg (Prod.map (setIndent · s.indent) id) hshort
    refine ⟨f, u.setIndent s.indent, ⟨hfails.exceeds, hfails.machine, hfails.output⟩, ?_⟩
    rw [finish, hexec]

theorem run_cuts (hs : s.Unlimited) (hfits : s.machine.fits L c) (budget : Budget)
    (src : Bytes) :
    Cuts L c (s.course budget src) (s.run budget src) ((s.limit L c).course budget src)
      ((s.limit L c).run budget src) := by
  obtain ⟨r, program, pc, hmachine⟩ := s.load_machine src
  unfold course run
  rw [load_limit]
  generalize s.load src = loaded at hmachine ⊢
  obtain ⟨t, _ | a⟩ := loaded
  · have ht : t.machine = { s.machine with symbols := r, program := program, pc := pc } := hmachine
    refine finish_cuts hL hc ⟨?_, ?_⟩ ?_ budget
    · rw [ht]
      exact hs.stackLimit
    · rw [ht]
      exact hs.callLimit
    · rw [ht]
      exact hfits
  · exact ⟨rfl, fun _ => rfl, by simp⟩

end

/-! ## Evaluations -/

theorem conclude_limit (L c : Int) (ended : Session × Option Abort) :
    conclude (ended.map (limit L c) id) = (conclude ended).map (limit L c) id := by
  obtain ⟨t, _ | a⟩ := ended
  · rfl
  · unfold conclude guarded
    simp only [Prod.map, id, Option.bind_some]
    cases a.recover (lit "VM") with
    | none => rfl
    | some e => rfl

/-- Let a session without limits evaluate a source, and let it evaluate the same source with limits
that its stacks are within. Both pass through the same states up to the first one in which a stack
is above its limit. If there is none, they end the same. If it is `t`, then the session with limits
stops in place of it with a stack overflow; it has the output and the definitions of `t`. -/
theorem limits_cut_short (s : Session) (hs : s.Unlimited) {L c : Int} (hL : 0 < L) (hc : 0 < c)
    (hfits : s.machine.stack.height ≤ L ∧ s.machine.calls.height ≤ c) (budget : Budget)
    (src : Bytes) :
    let within (t : Session) : Bool := t.machine.stack.height ≤ L ∧ t.machine.calls.height ≤ c
    (s.limit L c).course budget src =
      ((s.course budget src).takeWhile within).map (limit L c) ∧
    match (s.course budget src).find? fun t => !within t with
    | none => (s.limit L c).eval budget src =
        ((s.eval budget src).1.limit L c, (s.eval budget src).2)
    | some t => ∃ f u, (s.limit L c).eval budget src = (u, some (.fault f)) ∧
        f.category = lit "stack.stack_overflow" ∧
        (f = .stackOverflow L ∧ L < t.machine.stack.height ∨
          f = .callOverflow c ∧ c < t.machine.calls.height) ∧
        u.machine = (t.machine.limit L c).reset ∧ u.output = t.output.flush.1 := by
  intro within
  have hwithin : within = fun t => t.machine.fits L c := by
    funext t
    simp only [within, Machine.fits, hL, hc, true_implies]
  have hfits' : s.machine.fits L c := Machine.fits_iff.2 ⟨fun _ => hfits.1, fun _ => hfits.2⟩
  have hcuts := run_cuts hL hc hs hfits' budget src
  rw [hwithin]
  refine ⟨hcuts.kept, ?_⟩
  cases hfind : (s.course budget src).find? fun t => !t.machine.fits L c with
  | none =>
    have hall : ∀ t ∈ s.course budget src, t.machine.fits L c := by
      simpa using List.find?_eq_none.1 hfind
    change (s.limit L c).eval budget src = (s.eval budget src).map (limit L c) id
    rw [eval, eval, hcuts.whole hall, conclude_limit]
  | some t =>
    obtain ⟨f, u, ⟨hexceeds, hmachine, houtput⟩, hshort⟩ := hcuts.short t hfind
    refine ⟨f, u.reset, ?_, ?_, ?_, hmachine, houtput⟩
    · rw [eval, hshort]
      exact conclude_some rfl
    · cases hexceeds <;> rfl
    · cases hexceeds with
      | values _ h => exact Or.inl ⟨rfl, h⟩
      | calls _ h => exact Or.inr ⟨rfl, h⟩

/-- A word that writes, and then calls itself: two calls are within the limit and the third is not.
A source that stays within the limits, and fails for another reason. -/
theorem limits_cut_short_recursion :
    ∃ s, s = (new (.of []) [.output (some (.buffered {} {}))]).after
        [({ polls := 9 }, lit "\x7b 7 print . f \x7d :f def 1")] ∧
      s.Unlimited ∧ ((s.machine.stack.height : Int) ≤ 3 ∧ (s.machine.calls.height : Int) ≤ 2) ∧
      (∃ t u, (s.course { polls := 9 } (lit "f")).find? (fun t =>
          !decide ((t.machine.stack.height : Int) ≤ 3 ∧ (t.machine.calls.height : Int) ≤ 2)) =
            some t ∧
        (s.limit 3 2).eval { polls := 9 } (lit "f") = (u, some (.fault (.callOverflow 2))) ∧
        u.machine = (t.machine.limit 3 2).reset ∧ u.output = t.output.flush.1) ∧
      (s.limit 3 2).eval { polls := 9 } (lit "2 0 /") =
        ((s.eval { polls := 9 } (lit "2 0 /")).1.limit 3 2, some (.fault (.divideByZero 2))) := by
  obtain ⟨s, hs⟩ : ∃ s, s = (new (.of []) [.output (some (.buffered {} {}))]).after
    [({ polls := 9 }, lit "\x7b 7 print . f \x7d :f def 1")] := ⟨_, rfl⟩
  have hstart : (s.machine.stackLimit, s.machine.callLimit, s.machine.stack.height,
      s.machine.calls.height) = (0, 0, 1, 0) := by
    rw [hs]
    cbv
  obtain ⟨hstackLimit, hcallLimit, hstack, hcalls⟩ := by simpa only [Prod.mk.injEq] using hstart
  have hunlimited : s.Unlimited := ⟨hstackLimit, hcallLimit⟩
  have hfits : (s.machine.stack.height : Int) ≤ 3 ∧ (s.machine.calls.height : Int) ≤ 2 := by
    omega
  have hcut := limits_cut_short s hunlimited (by decide) (by decide) hfits { polls := 9 }
  refine ⟨s, hs, hunlimited, hfits, ?_, ?_⟩
  · have hover := (hcut (lit "f")).2
    have herror : ((s.limit 3 2).eval { polls := 9 } (lit "f")).2 =
        some (.fault (.callOverflow 2)) := by
      rw [hs]
      cbv
    split at hover
    · rw [hover] at herror
      have hfree : (s.eval { polls := 9 } (lit "f")).2 = some (.interrupted .deadline) := by
        rw [hs]
        cbv
      rw [hfree] at herror
      cases herror
    · rename_i t hfind
      obtain ⟨f, u, heval, -, -, hmachine, houtput⟩ := hover
      rw [heval] at herror
      cases herror
      exact ⟨t, u, hfind, heval, hmachine, houtput⟩
  · have hwhole := (hcut (lit "2 0 /")).2
    have herror : ((s.limit 3 2).eval { polls := 9 } (lit "2 0 /")).2 =
        some (.fault (.divideByZero 2)) := by
      rw [hs]
      cbv
    split at hwhole
    · rw [hwhole] at herror ⊢
      rw [← herror]
    · obtain ⟨f, u, heval, hcategory, -⟩ := hwhole
      rw [heval] at herror
      cases herror
      exact absurd hcategory (by decide)

end StackLang.Session
