import Mathlib
import StackLang.Proofs.Limits
import StackLang.Proofs.Safety

/-!
# Invariants of sessions

A property of machines that loading a source, every instruction and a reset keep is one of all
states that a session ever gets into. One of them is that no stack is above its limit. The limit on
calls is one on loops, too: an activation has at most one loop of its own.

* `Machine.Lasting`: properties that instructions and resets keep.
* `Session.passes`, `Session.course`: the states of a run, one after each instruction.
* `Session.Reaches`: the states that a session can get into (`Reaches.ensures`).
* `Tree.Orderly`: what the control invariant says at any time (`Visits.orderly`).
* `Session.heights_bounded`: how high the stacks are in all of them.
-/

namespace StackLang

/-- A property that neither the instructions of the program nor a reset take away. -/
structure Machine.Lasting (P : Machine → Prop) : Prop where
  run : ∀ m op, m.fetch? = some op → P m → (Op.run m op).Ensures P
  advance : ∀ m, P m → P m.advance
  reset : ∀ m, P m → P m.reset

namespace Session

/-! ## Runs -/

section

variable {P : Machine → Prop} {s : Session} (hP : Machine.Lasting P)

include hP

theorem step_ensures (hs : P s.machine) : P s.step.1.machine := by
  unfold step
  cases hfetch : s.machine.fetch? with
  | none => exact hs
  | some op =>
    have htrace := (s.traceOp_idle op).machine
    simp only
    generalize s.traceOp op = traced at htrace ⊢
    obtain ⟨t, _ | a⟩ := traced
    · have ht : P t.machine := htrace ▸ hs
      exact perform_ensures hP.advance (hP.run _ op (htrace ▸ hfetch) ht) ht
    · exact htrace ▸ hs

theorem loop_ensures (hs : P s.machine) (i : Interruption) (polls : Nat) :
    P (s.loop i polls).1.machine := by
  fun_induction loop i polls s with
  | case1 s hrunning t hstep =>
    have ht := step_ensures hP hs
    rw [hstep] at ht
    exact (t.halt_idle _).machine ▸ ht
  | case2 s hrunning t hstep polls ih =>
    have ht := step_ensures hP hs
    rw [hstep] at ht
    exact ih ht
  | case3 polls s hrunning hne => exact step_ensures hP hs
  | case4 polls s hrunning => exact hs

theorem finish_ensures (hs : P s.machine) (budget : Budget) :
    P (s.finish budget).1.machine := by
  have hexec : P (s.exec budget).1.machine :=
    loop_ensures (s := s.setIndent (s.indent ++ lit "\t")) hP hs budget.interruption budget.polls
  unfold finish
  generalize s.exec budget = ended at hexec ⊢
  obtain ⟨t, _ | a⟩ := ended
  · exact (t.afterCall_idle _).machine ▸ hexec
  · exact hexec

/-- What holds when a source was loaded holds after its evaluation. -/
theorem eval_ensures {src : Bytes} (hload : P (s.load src).1.machine) (budget : Budget) :
    P (s.eval budget src).1.machine := by
  have hrun : P (s.run budget src).1.machine := by
    unfold run
    generalize s.load src = loaded at hload ⊢
    obtain ⟨t, _ | a⟩ := loaded
    · exact finish_ensures hP hload budget
    · exact hload
  rcases s.eval_cases budget src with heval | ⟨a, e, -, heval⟩
  · rw [heval]
    exact hrun
  · rw [heval]
    exact hP.reset _ hrun

theorem Running.ensures {src : Bytes} {t : Session} (hload : P (s.load src).1.machine)
    (h : s.Running src t) : P t.machine := by
  induction h with
  | load h =>
    rw [h] at hload
    exact hload
  | step _ _ hstep ih =>
    have ht := step_ensures hP ih
    rwa [hstep] at ht

/-- What holds when a source was loaded holds all the time that it is evaluated. -/
theorem Visits.ensures {src : Bytes} {t : Session} (hload : P (s.load src).1.machine)
    (h : s.Visits src t) : P t.machine := by
  cases h with
  | load => exact hload
  | running h => exact h.ensures hP hload
  | step h _ => exact step_ensures hP (h.ensures hP hload)
  | result budget => exact eval_ensures hP hload budget

end

/-! ## States of a run -/

/-- The states of a run: the first one, and one after each instruction that was carried out. -/
def passes (polls : Nat) (s : Session) : List Session :=
  if s.machine.running then
    match s.step with
    | (t, none) =>
      match polls with
      | 0 => [s, t]
      | polls + 1 => s :: passes polls t
    | _ => [s]
  else [s]

/-- The states in which a source runs, from when it was loaded; none, if it was refused. -/
def course (s : Session) (budget : Budget) (src : Bytes) : List Session :=
  match s.load src with
  | (t, none) => (t.setIndent (t.indent ++ lit "\t")).passes budget.polls
  | _ => []

theorem passes_head (polls : Nat) (s : Session) : ∃ rest, s.passes polls = s :: rest := by
  unfold passes
  split
  · split
    · split
      · exact ⟨_, rfl⟩
      · exact ⟨_, rfl⟩
    · exact ⟨_, rfl⟩
  · exact ⟨_, rfl⟩

theorem Running.of_mem_passes {s t u : Session} {src : Bytes} {polls : Nat} (h : s.Running src t)
    (hu : u ∈ t.passes polls) : s.Running src u := by
  fun_induction passes polls t with
  | case1 t hrunning t' hstep =>
    rcases List.mem_pair.1 hu with rfl | rfl
    · exact h
    · exact h.step hrunning hstep
  | case2 t hrunning t' hstep polls ih =>
    rcases List.mem_cons.1 hu with rfl | hu
    · exact h
    · exact ih (h.step hrunning hstep) hu
  | case3 polls t hrunning hne => exact List.mem_singleton.1 hu ▸ h
  | case4 polls t hrunning => exact List.mem_singleton.1 hu ▸ h

theorem running_of_mem_course {s t : Session} {budget : Budget} {src : Bytes}
    (h : t ∈ s.course budget src) : s.Running src t := by
  unfold course at h
  split at h
  · rename_i t' hload
    exact (Running.load hload).of_mem_passes h
  · cases h

/-! ## All states -/

/-- The states that a session can get into: it evaluates sources one after the other, and is at rest
between two of them. -/
inductive Reaches (s : Session) : Session → Prop
  | rest (history : List (Budget × Bytes)) : s.Reaches (s.after history)
  | visits {history : List (Budget × Bytes)} {src : Bytes} {t : Session}
    (h : (s.after history).Visits src t) : s.Reaches t

section

variable {P : Machine → Prop} (hP : Machine.Lasting P)
  (hload : ∀ (s : Session) src, P s.machine → P (s.load src).1.machine)

include hP hload

theorem after_ensures {s : Session} (hs : P s.machine) (history : List (Budget × Bytes)) :
    P (s.after history).machine := by
  induction history generalizing s with
  | nil => exact hs
  | cons e history ih => exact ih (eval_ensures hP (hload s e.2 hs) e.1)

/-- What holds at first, and is not lost when a source is loaded, holds at all times. -/
theorem Reaches.ensures {s t : Session} (hs : P s.machine) (h : s.Reaches t) : P t.machine := by
  cases h with
  | rest history => exact after_ensures hP hload hs history
  | visits h => exact h.ensures hP (hload _ _ (after_ensures hP hload hs _))

end

end Session

/-! ## Heights -/

namespace Machine

/-- The machine has these limits, and is within them. -/
structure Obeys (L c : Int) (m : Machine) : Prop where
  stackLimit : m.stackLimit = L
  callLimit : m.callLimit = c
  fits : m.fits L c

theorem lasting_obeys (L c : Int) : Lasting (Obeys L c) where
  run := by
    rintro m op - ⟨rfl, rfl, hfits⟩
    have hrun : (op.run m).Ensures fun m' => m'.fits m.stackLimit m.callLimit :=
      (op.run_intends m).run_fits hfits
    exact (hrun.and (op.run_preserves m)).imp fun m' h => ⟨h.2.stackLimit, h.2.callLimit, h.1⟩
  advance m h := ⟨h.stackLimit, h.callLimit, h.fits⟩
  reset m h := by
    refine ⟨h.stackLimit, h.callLimit, fits_iff.2 ?_⟩
    exact ⟨fun hL => Int.le_of_lt hL, fun hc => Int.le_of_lt hc⟩

/-- Binding the names of the builtins touches neither stacks nor limits. -/
theorem defineBuiltins_eq (m : Machine) :
    ∃ r words, m.defineBuiltins = { m with symbols := r, words := words } := by
  unfold defineBuiltins
  generalize Builtin.all.zipIdx = l
  induction l generalizing m with
  | nil => exact ⟨m.symbols, m.words, rfl⟩
  | cons e l ih =>
    obtain ⟨r, words, heq⟩ := ih { m with
      symbols := (m.symbols.intern (.ofWord e.1.name)).1
      words := m.words.define (m.symbols.intern (.ofWord e.1.name)).2 (.builtin e.2) }
    exact ⟨r, words, heq⟩

end Machine

namespace Tree

variable {r : Registry} {T : Table}

/-- An activation has at most one loop of its own. -/
theorem Pending.loops_le {ops : Array Op} {stop₀ stop : Nat} {R calls : List Int}
    {L loops : List Loop} (h : Pending r T ops stop₀ R L stop calls loops) :
    loops.length + R.length ≤ calls.length + L.length := by
  induction h with
  | base => omega
  | @call _ _ _ looping own _ _ _ _ hown _ ih =>
    have hle := looping.toNat_le
    rw [List.length_append, List.length_cons]
    omega

/-- What holds of the machine of a session at any time: it is sound, and it has no more loops than
activations, which are the pending calls and one. -/
structure Orderly (m : Machine) : Prop where
  sound : ∃ r T σ, Sound r T m σ
  loops : m.loops.length ≤ m.calls.height + 1

theorem Governed.orderly {S : Setup} {stop₀ : Nat} {m : Machine}
    (h : Governed r T S stop₀ [] [] m) : Orderly m := by
  obtain ⟨σ, stop, p, looping, own, rest, h⟩ := h
  refine ⟨⟨r, T, σ, h.sound⟩, ?_⟩
  have hpending := h.pending.loops_le
  have hown := h.own
  have hle := looping.toNat_le
  simp only [List.length_nil] at hpending
  rw [h.loops, m.calls.height_eq, List.length_append]
  omega

theorem Resting.orderly {m : Machine} {σ : State} (h : Resting T m σ) : Orderly m := by
  refine ⟨⟨_, T, σ, h.sound⟩, ?_⟩
  rw [h.loops]
  exact Nat.zero_le _

end Tree

namespace Session

open StackLang.Tree

theorem Visits.orderly {T : Table} {s t : Session} {σ : State} {src : Bytes}
    (h : Resting T s.machine σ) (hvisits : s.Visits src t) : Orderly t.machine := by
  cases hvisits with
  | load =>
    rcases load_cases h src with ⟨t, a, hload, hrest, -⟩ | ⟨t, tree, new, hload, -, hloaded, -⟩
    · rw [hload]
      exact hrest.orderly
    · rw [hload]
      exact hloaded.governed.orderly
  | running hrun =>
    obtain ⟨r, tree, new, S, -, -, hgoverned, -⟩ := hrun.governed h
    exact hgoverned.orderly
  | step hrun hrunning =>
    obtain ⟨r, tree, new, S, -, -, hgoverned, -⟩ := hrun.governed h
    exact (step_steps hgoverned hrunning).governed.orderly
  | result budget =>
    obtain ⟨⟨T', σ', hrest, -⟩, -⟩ := eval_evaluated h budget src
    exact hrest.orderly

/-- Loading a source touches neither the stacks nor the limits. -/
theorem load_machine (s : Session) (src : Bytes) :
    ∃ r program pc, (s.load src).1.machine =
      { s.machine with symbols := r, program := program, pc := pc } := by
  rcases s.load_changes src with ⟨t, a, hload, ⟨r, -, -, hmachine⟩, -⟩ |
    ⟨t, d, program, hload, -, haccepted⟩
  · rw [hload]
    exact ⟨r, _, _, hmachine⟩
  · rw [hload]
    exact ⟨_, program, _, haccepted.machine⟩

theorem load_obeys {L c : Int} (s : Session) (src : Bytes) (h : s.machine.Obeys L c) :
    (s.load src).1.machine.Obeys L c := by
  obtain ⟨r, program, pc, hmachine⟩ := s.load_machine src
  rw [hmachine]
  exact ⟨h.stackLimit, h.callLimit, h.fits⟩

/-- A session that was just set up has names, words and limits, and nothing else. -/
theorem new_machine (r : Registry) (settings : List Setting) :
    ∃ r' words a b, (new r settings).machine =
      { symbols := r', words := words, stackLimit := a, callLimit := b } := by
  obtain ⟨a, b, hsettings⟩ := foldl_apply_machine settings { machine := { symbols := r } }
  obtain ⟨r', words, hbuiltins⟩ :=
    Machine.defineBuiltins_eq { symbols := r, stackLimit := a, callLimit := b }
  refine ⟨r', words, a, b, ?_⟩
  simp only [new, hsettings]
  exact hbuiltins

theorem new_obeys (r : Registry) (settings : List Setting) :
    (new r settings).machine.Obeys (new r settings).machine.stackLimit
      (new r settings).machine.callLimit := by
  obtain ⟨r', words, a, b, hnew⟩ := new_machine r settings
  rw [hnew]
  refine ⟨rfl, rfl, Machine.fits_iff.2 ?_⟩
  exact ⟨fun hL => Int.le_of_lt hL, fun hc => Int.le_of_lt hc⟩

/-- A session with any settings keeps within its limits, in all states that it gets into. It has at
most one loop more than pending calls, so a limit on the calls bounds the loops, too. -/
theorem heights_bounded (names : List Name) (settings : List Setting) {L c : Int}
    (hL : (new (.of names) settings).machine.stackLimit = L)
    (hc : (new (.of names) settings).machine.callLimit = c) {t : Session}
    (h : (new (.of names) settings).Reaches t) :
    t.machine.stackLimit = L ∧ t.machine.callLimit = c ∧
      t.machine.loops.length ≤ t.machine.calls.height + 1 ∧
      (0 < c → t.machine.calls.height ≤ c ∧ t.machine.loops.length ≤ c + 1) ∧
      (0 < L → t.machine.stack.height ≤ L) := by
  have hnew := new_obeys (.of names) settings
  rw [hL, hc] at hnew
  obtain ⟨hstack, hcall, hfits⟩ := h.ensures (Machine.lasting_obeys L c) load_obeys hnew
  have hloops : t.machine.loops.length ≤ t.machine.calls.height + 1 := by
    cases h with
    | rest history =>
      obtain ⟨T, σ, hrests⟩ := new_after_rests names settings history
      exact hrests.resting.orderly.loops
    | @visits history src _ h =>
      obtain ⟨T, σ, hrests⟩ := new_after_rests names settings history
      exact (h.orderly hrests.resting).loops
  obtain ⟨hvalues, hcalls⟩ := Machine.fits_iff.1 hfits
  refine ⟨hstack, hcall, hloops, fun hpos => ⟨hcalls hpos, ?_⟩, hvalues⟩
  have hle := hcalls hpos
  omega

/-- A loop within a loop, and a value that an earlier source has left. Both bounds of a limit of one
call are met, and the condition of the inner loop cannot be called. -/
theorem heights_bounded_nested_loops :
    ∃ s src, s = (new (.of []) [.stackLimit 3, .callLimit 1]).after [({ polls := 9 }, lit "7")] ∧
      src = lit "\x7b 1 \x7d \x7b \x7b 1 \x7d \x7b nl \x7d while \x7d while" ∧
      ((s.course { polls := 99 } src).map fun t =>
        (t.machine.stack.height, t.machine.calls.height, t.machine.loops.length)).getLast? =
          some (1, 1, 2) ∧
      ∀ t ∈ s.course { polls := 99 } src,
        t.machine.loops.length ≤ t.machine.calls.height + 1 ∧
        ((t.machine.calls.height : Int) ≤ 1 ∧ (t.machine.loops.length : Int) ≤ 2) ∧
        (t.machine.stack.height : Int) ≤ 3 := by
  refine ⟨_, _, rfl, rfl, by cbv, ?_⟩
  intro t ht
  obtain ⟨-, -, hloops, hcalls, hvalues⟩ := heights_bounded [] [.stackLimit 3, .callLimit 1]
    (by cbv) (by cbv) (.visits (.running (running_of_mem_course ht)))
  exact ⟨hloops, hcalls (by decide), hvalues (by decide)⟩

end Session

end StackLang
