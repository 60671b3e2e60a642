import Mathlib
import StackLang.Proofs.Sessions

/-!
# Sessions do not fail internally

Whatever sources a session evaluates, its machine never runs into code that is not there. Only
faults that a source can bring about are reported, and every reference to a block, wherever it is
kept, is to the start of a block that was compiled.

* `Machine.Mentions`: the code that a machine can get at.
* `Tree.WellFormed`: the program counter, the instructions and all references are in order.
* `Session.Visits`: the states that a session passes through when it evaluates a source.
* `Session.never_fails_internally`: all of them are well-formed, and no error is internal.
-/

namespace StackLang

/-- Code that the machine has: among its values, in a loop, in a definition, or in its program. -/
inductive Machine.Mentions (m : Machine) : Code → Prop
  | value {c : Code} (h : .code c ∈ m.stack.items) : m.Mentions c
  | cond {l : Loop} (h : l ∈ m.loops) : m.Mentions l.cond
  | body {l : Loop} (h : l ∈ m.loops) : m.Mentions l.body
  | word {h : Handle} {c : Code} (h : m.words.find? h = some c) : m.Mentions c
  | push {c : Code} (h : .push (.code c) ∈ m.program.ops) : m.Mentions c

namespace Tree

/-- The machine is in order, and the blocks of its program are `bodies`. -/
structure WellFormed (bodies : List (List Item)) (m : Machine) : Prop where
  pc : 0 ≤ m.pc ∧ m.pc ≤ m.program.ops.size
  known : ∀ op ∈ m.program.ops, ∀ c, op ≠ .other c
  /-- The blocks lie in the program one behind the other, and code refers to their starts. -/
  blocks : ∃ T : Table, T.map Placement.body = bodies ∧ Ordered T ∧
    (∀ b ∈ T, ∃ code, Assembled m.symbols T b.start b.body code ∧
      Holds m.program.ops b.start (code ++ [.ret])) ∧
    ∀ c, m.Mentions c → (∃ b ∈ T, c = .block b.start) ∨
      ∃ i b, c = .builtin i ∧ Builtin.ofIndex? i = some b

variable {r : Registry} {T : Table} {m : Machine} {σ : State}

theorem Refers.block_or_builtin {c : Code} {k : Routine} (h : Refers T c k) :
    (∃ b ∈ T, c = .block b.start) ∨ ∃ i b, c = .builtin i ∧ Builtin.ofIndex? i = some b := by
  cases h with
  | block h => exact Or.inl ⟨_, List.mem_of_getElem? h, rfl⟩
  | builtin h => exact Or.inr ⟨_, _, rfl, h⟩

/-- A code value that denotes something refers to a routine. -/
theorem refers_of_mem {vs : List Value} {xs : List Datum} (h : List.Forall₂ (Denotes r T) vs xs)
    {c : Code} (hc : .code c ∈ vs) : ∃ k, Refers T c k := by
  induction h with
  | nil => cases hc
  | cons hv _ ih =>
    rcases List.mem_cons.1 hc with rfl | hc
    · cases hv with
      | constant h => cases h
      | code h => exact ⟨_, h⟩
    · exact ih hc

/-- All code of a sound machine refers to a routine. -/
theorem Sound.refers (h : Sound r T m σ) (hloops : LoopsRefer T m.loops) {c : Code}
    (hc : m.Mentions c) : ∃ k, Refers T c k := by
  cases hc with
  | value hc => exact refers_of_mem h.represents.stack hc
  | cond hl => exact (hloops _ hl).1
  | body hl => exact (hloops _ hl).2
  | word hfind =>
    obtain ⟨w, hname⟩ := h.represents.bound hfind
    have hrel := h.represents.words hname
    rw [hfind] at hrel
    generalize σ.words w = found at hrel
    cases hrel with
    | some hc => exact ⟨_, hc⟩
  | push hop => exact (h.linked.known _ hop).2 _ rfl

theorem Sound.wellFormed (h : Sound r T m σ) (hloops : LoopsRefer T m.loops)
    (hpc : 0 ≤ m.pc ∧ m.pc ≤ m.program.ops.size) : WellFormed (T.map Placement.body) m where
  pc := hpc
  known op hop := (h.linked.known op hop).1
  blocks := by
    have hlinked := h.linked.mono h.kept
    refine ⟨T, rfl, hlinked.ordered, hlinked.placed, ?_⟩
    intro c hc
    obtain ⟨k, hk⟩ := h.refers hloops hc
    exact hk.block_or_builtin

theorem Governed.wellFormed {S : Setup} {stop₀ : Nat} {R : List Int} {L : List Loop}
    (h : Governed r T S stop₀ R L m) : WellFormed (T.map Placement.body) m := by
  have hinside := h.inside
  rw [← h.program] at hinside
  obtain ⟨σ, stop, p, looping, own, rest, h⟩ := h
  exact h.sound.wellFormed h.refers hinside

theorem Resting.wellFormed (h : Resting T m σ) : WellFormed (T.map Placement.body) m := by
  refine h.sound.wellFormed ?_ ?_
  · rw [h.loops]
    exact fun l hl => nomatch hl
  · rw [h.pc]
    omega

end Tree

namespace Session

open StackLang.Tree

/-- The states that a session passes through when it evaluates a source. -/
inductive Visits (s : Session) (src : Bytes) : Session → Prop
  /-- The source was loaded, or refused. -/
  | load : s.Visits src (s.load src).1
  | running {t : Session} (h : s.Running src t) : s.Visits src t
  /-- An instruction was carried out, or failed. -/
  | step {t : Session} (h : s.Running src t) (hrunning : t.machine.running = true) :
    s.Visits src t.step.1
  | result (budget : Budget) : s.Visits src (s.eval budget src).1

theorem Visits.wellFormed {T : Table} {s t : Session} {σ : State} {src : Bytes}
    (h : Resting T s.machine σ) (hcalm : s.Calm) (hvisits : s.Visits src t) :
    WellFormed (extend (T.map Placement.body) src) t.machine := by
  cases hvisits with
  | load =>
    rcases load_cases h src with
      ⟨t, a, hload, hrest, -, -, -, hnone⟩ | ⟨t, tree, new, hload, htree, hloaded, -⟩
    · rw [hload, ← extend_of_none (hnone hcalm)]
      exact hrest.wellFormed
    · rw [hload, ← extend_of_some htree hloaded.bodies]
      exact hloaded.governed.wellFormed
  | running hrun =>
    obtain ⟨r, tree, new, S, htree, hbodies, hgoverned, -⟩ := hrun.governed h
    rw [← extend_of_some htree hbodies]
    exact hgoverned.wellFormed
  | step hrun hrunning =>
    obtain ⟨r, tree, new, S, htree, hbodies, hgoverned, -⟩ := hrun.governed h
    rw [← extend_of_some htree hbodies]
    exact (step_steps hgoverned hrunning).governed.wellFormed
  | result budget =>
    obtain ⟨⟨T', σ', hrest, hbodies⟩, -⟩ := eval_evaluated h budget src
    rw [← hbodies hcalm]
    exact hrest.wellFormed

theorem category_of_internal {f : Fault} (h : f.internal = false) :
    f.category ≠ lit "stack.call_stack_underflow" ∧ (∀ i, f ≠ .mismatch (.noBuiltin i)) ∧
      ∀ c, f ≠ .mismatch (.invalidCode c) := by
  refine ⟨?_, ?_, ?_⟩
  · cases f with
    | noCall a => cases h
    | noLoop a => cases h
    | _ =>
      rw [Fault.category]
      decide
  · rintro i rfl
    cases h
  · rintro c rfl
    cases h

/-- A session whose devices and log never panic, after any evaluations with any budgets: it is in
order, and so are all states it passes through in the next evaluation. Its error, if there is one,
is no panic, no exit, no want of a call or loop, and no code that cannot run. -/
theorem never_fails_internally (names : List Name) (settings : List Setting)
    (hcalm : (new (.of names) settings).Calm) (history : List (Budget × Bytes)) (src : Bytes) :
    WellFormed (library (history.map Prod.snd))
      ((new (.of names) settings).after history).machine ∧
    (∀ t, ((new (.of names) settings).after history).Visits src t →
      WellFormed (library (history.map Prod.snd ++ [src])) t.machine) ∧
    ∀ budget t e, ((new (.of names) settings).after history).eval budget src = (t, some e) →
      e.isPanic = false ∧ e.isExit = false ∧
      ∀ f, e = .fault f → f.category ≠ lit "stack.call_stack_underflow" ∧
        (∀ i, f ≠ .mismatch (.noBuiltin i)) ∧ ∀ c, f ≠ .mismatch (.invalidCode c) := by
  obtain ⟨T, σ, h⟩ := new_after_rests names settings history
  have hcalm' := h.alike.calm hcalm
  refine ⟨?_, ?_, ?_⟩
  · rw [← h.bodies hcalm]
    exact h.resting.wellFormed
  · intro t hvisits
    have hwell := hvisits.wellFormed h.resting hcalm'
    rwa [h.bodies hcalm, ← library_concat] at hwell
  · intro budget t e heval
    have hexpected := (eval_evaluated h.resting budget src).expected hcalm' e (by rw [heval])
    exact ⟨hexpected.panic, hexpected.exit, fun f hf => category_of_internal (hexpected.fault f hf)⟩

/-- A session with limits, a buffered output and a log, in which a recursion overflowed, a source
was refused and a loop was interrupted; then a word that has no definition is called in a loop. -/
theorem never_fails_internally_limited :
    (new (.of []) [.output (some (.buffered {} {})), .stackLimit 3, .callLimit 2,
      .trace (some {})]).Calm ∧
    ∃ s, s = (new (.of []) [.output (some (.buffered {} {})), .stackLimit 3, .callLimit 2,
        .trace (some {})]).after [({ polls := 9 }, lit "\x7b f \x7d :f def f"),
          ({ polls := 9 }, lit "\x7b 1"),
          ({ polls := 5 }, lit "\x7b true \x7d \x7b nl \x7d while")] ∧
      WellFormed (library [lit "\x7b f \x7d :f def f", lit "\x7b 1",
        lit "\x7b true \x7d \x7b nl \x7d while"]) s.machine ∧
      (∀ t, s.Visits (lit "\x7b true \x7d \x7b g \x7d while") t →
        WellFormed (library [lit "\x7b f \x7d :f def f", lit "\x7b 1",
          lit "\x7b true \x7d \x7b nl \x7d while", lit "\x7b true \x7d \x7b g \x7d while"])
          t.machine) ∧
      (s.eval { polls := 99 } (lit "\x7b true \x7d \x7b g \x7d while")).2 =
        some (.fault (.unimplemented (lit "g"))) ∧
      ∀ budget t e, s.eval budget (lit "\x7b true \x7d \x7b g \x7d while") = (t, some e) →
        e.isPanic = false ∧ e.isExit = false ∧
        ∀ f, e = .fault f → f.category ≠ lit "stack.call_stack_underflow" ∧
          (∀ i, f ≠ .mismatch (.noBuiltin i)) ∧ ∀ c, f ≠ .mismatch (.invalidCode c) := by
  have hcalm : (new (.of []) [.output (some (.buffered {} {})), .stackLimit 3, .callLimit 2,
      .trace (some {})]).Calm := by
    constructor
    · intro stream hstream
      obtain rfl : stream = .buffered {} {} := by simpa [new, apply] using hstream
      exact Behavior.calm_faithful
    · rintro t ht call line
      obtain rfl : t = {} := by simpa [new, apply] using ht.symm
      rfl
  obtain ⟨hrest, hvisits, herror⟩ := never_fails_internally [] _ hcalm
    [({ polls := 9 }, lit "\x7b f \x7d :f def f"), ({ polls := 9 }, lit "\x7b 1"),
      ({ polls := 5 }, lit "\x7b true \x7d \x7b nl \x7d while")]
    (lit "\x7b true \x7d \x7b g \x7d while")
  exact ⟨hcalm, _, rfl, hrest, hvisits, by cbv, herror⟩

end Session

end StackLang
