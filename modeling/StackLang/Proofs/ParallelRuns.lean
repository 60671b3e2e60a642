import StackLang.Proofs.Alignment
import StackLang.Proofs.Refinement

/-!
# Runs in parallel

What machines do that are about to run the same items, step by step: as long as the one goes on, so
does the other, and where the one is done or fails, the other is done with these items or fails too.

* `Machine.Parallel.runs`: a run of one of two parallel machines is one of the other.
* `Governed.outcome`: a machine is done, fails, or goes on for as long as it may.
* `Aligned.done`, `Aligned.failed`: how two machines come to the end of the same items.
-/

namespace StackLang

namespace Machine

/-! ## Steps -/

theorem Goes.running {m m' : Machine} {out : Bytes} (h : m.Goes out m') : m.running = true := by
  cases h with
  | next hstep => exact running_of_step (by simp [hstep])
  | emit hstep => exact running_of_step (by simp [hstep])

theorem step_preserves (m : Machine) : m.step.Ensures m.Preserves := by
  rw [step]
  cases m.fetch? with
  | none => trivial
  | some op => exact op.run_preserves m

theorem Goes.preserves {m m' : Machine} {out : Bytes} (h : m.Goes out m') : m.Preserves m' := by
  have hstep := m.step_preserves
  cases h with
  | next heffect =>
    rw [heffect] at hstep
    exact hstep
  | emit heffect =>
    rw [heffect] at hstep
    exact ⟨hstep.program, hstep.stackLimit, hstep.callLimit, hstep.symbols, hstep.distinct⟩

theorem Runs.preserves {n : Nat} {m m' : Machine} {out : Bytes} (h : m.Runs n out m') :
    m.Preserves m' := by
  induction h with
  | refl m => exact .refl m
  | step hgoes _ ih => exact hgoes.preserves.trans ih

/-- No instruction that the machine comes to writes a code value. -/
def WritesNoCode (m : Machine) : Prop :=
  ∀ ⦃n out m'⦄, m.Runs n out m' → ∀ v ∈ m'.written, v.code? = none

theorem WritesNoCode.goes {m m' : Machine} {out : Bytes} (h : m.WritesNoCode)
    (hgoes : m.Goes out m') : m'.WritesNoCode :=
  fun _ _ _ hruns => h (.step hgoes hruns)

/-! ## Two machines -/

section

variable {χ : Chart} {m m' : Machine} (h : m.Parallel χ m')

include h

theorem Parallel.step (hstep : m.step ≠ .stuck) : Effect.Parallel χ m.written m.step m'.step := by
  rw [Machine.step] at hstep ⊢
  cases hfetch : m.fetch? with
  | none =>
    rw [hfetch] at hstep
    exact absurd rfl hstep
  | some op =>
    obtain ⟨op', hfetch', -, heffect⟩ := h.fetch hfetch
    rw [Machine.step, hfetch']
    exact heffect

theorem Parallel.goes {out : Bytes} {m₁ : Machine} (hgoes : m.Goes out m₁) :
    ∃ out' m₁', m'.Goes out' m₁' ∧ m₁.Parallel χ m₁' ∧
      ((∀ v ∈ m.written, v.code? = none) → out = out') := by
  cases hgoes with
  | next hstep =>
    have heffect := h.step (by simp [hstep])
    rw [hstep] at heffect
    generalize hstep' : m'.step = effect at heffect
    cases heffect with
    | next hnext => exact ⟨_, _, .next hstep', hnext, fun _ => rfl⟩
  | emit hstep =>
    have heffect := h.step (by simp [hstep])
    rw [hstep] at heffect
    generalize hstep' : m'.step = effect at heffect
    cases heffect with
    | emit _ hadvance htext =>
      refine ⟨_, _, .emit hstep', hadvance, fun hplain => ?_⟩
      rw [htext (Or.inr hplain)]

/-- What the one machine does, the other does as well. -/
theorem Parallel.runs {n : Nat} {out : Bytes} {m₁ : Machine} (hruns : m.Runs n out m₁) :
    ∃ out' m₁', m'.Runs n out' m₁' ∧ m₁.Parallel χ m₁' ∧ (m.WritesNoCode → out = out') := by
  induction hruns generalizing m' with
  | refl m => exact ⟨[], m', .refl m', h, fun _ => rfl⟩
  | step hgoes hrest ih =>
    obtain ⟨out', m₁', hgoes', hparallel, htext⟩ := h.goes hgoes
    obtain ⟨out'', m₂', hrest', hparallel', htext'⟩ := ih hparallel
    refine ⟨out' ++ out'', m₂', .step hgoes' hrest', hparallel', fun hplain => ?_⟩
    rw [htext (hplain (.refl _)), htext' (hplain.goes hgoes)]

/-- Faults that a source has a part in are the same. -/
theorem Parallel.fault {f : Fault} {m₁ : Machine} (hfault : m.step = .fault f m₁)
    (hf : f.internal = false) : ∃ m₁', m'.step = .fault f m₁' := by
  have heffect := h.step (by simp [hfault])
  rw [hfault] at heffect
  generalize hstep' : m'.step = effect at heffect
  cases heffect with
  | fault halike _ =>
    rw [halike.eq_of_internal hf]
    exact ⟨_, rfl⟩

end

end Machine

namespace Tree

/-! ## Machines that keep the invariant -/

section

variable {r : Registry} {T : Table} {S : Setup} {m : Machine}
  (h : Governed r T S S.ops.size [] [] m)

include h

theorem Governed.busy (hrunning : m.running = true) : m.pc ≠ S.ops.size := by
  have hlt : m.pc < m.program.ops.size := by simpa [Machine.running] using hrunning
  rw [h.program] at hlt
  omega

theorem Governed.runs {n : Nat} {out : Bytes} {m' : Machine} (hruns : m.Runs n out m') :
    Governed r T S S.ops.size [] [] m' := by
  induction hruns with
  | refl m => exact h
  | step hgoes _ ih => exact ih (h.goes (Or.inl (h.busy hgoes.running)) hgoes).governed

/-- A machine is done, fails over its source, or goes on for as long as it may. -/
theorem Governed.outcome (n : Nat) :
    (∃ k out m', m.Runs k out m' ∧ m'.running = false) ∨
      (∃ k out m' f m'', m.Runs k out m' ∧ m'.step = .fault f m'' ∧ f.internal = false) ∨
      ∃ out m', m.Runs n out m' := by
  induction n with
  | zero => exact Or.inr (Or.inr ⟨[], m, .refl m⟩)
  | succ n ih =>
    rcases ih with hdone | hfailed | ⟨out, m', hruns⟩
    · exact Or.inl hdone
    · exact Or.inr (Or.inl hfailed)
    · cases hrunning : m'.running with
      | false => exact Or.inl ⟨n, out, m', hruns, hrunning⟩
      | true =>
        have hm' := h.runs hruns
        have hstep := hm'.step (Or.inl (hm'.busy hrunning))
        cases heffect : m'.step with
        | next m₁ =>
          exact Or.inr (Or.inr ⟨_, m₁, hruns.trans (.step (.next heffect) (.refl m₁))⟩)
        | emit text m₁ =>
          exact Or.inr (Or.inr ⟨_, _, hruns.trans (.step (.emit heffect) (.refl _))⟩)
        | fault f m₁ =>
          rw [heffect] at hstep
          exact Or.inr (Or.inl ⟨n, out, m', f, m₁, hruns, heffect, hstep.1⟩)
        | stuck =>
          rw [heffect] at hstep
          exact hstep.elim

/-- A machine that is done is at rest. -/
theorem Governed.resting (hover : m.running = false) : ∃ σ, Resting T m σ := by
  obtain ⟨hpc, hcalls, hloops⟩ := h.quiet hover
  rw [← h.program] at hpc
  obtain ⟨σ, stop, p, looping, own, rest, hactive⟩ := h
  exact ⟨σ, hactive.sound.refresh, hpc, hcalls, hloops⟩

end

/-! ## The same items -/

section

variable {T T' : Table} {m m' : Machine} {items more : List Item} {n : Nat} {out : Bytes}
  {e : Machine} (h : Aligned T T' m m' items more) (hdata : m.SameData (SameBlock T T') m')
  (hruns : m.Runs n out e)

include h hdata

theorem Aligned.parallel : m.Parallel h.chart m' := by
  refine Machine.SameData.parallel hdata h.maps ?_
  obtain ⟨p, code, hpc, -, -, hend⟩ := h.ready.code
  have hstart : Matched T T' m m' (m.pc + (0 : Nat)) (m'.pc + (0 : Nat)) := by
    refine .top ?_
    rw [hpc]
    omega
  rw [Int.natCast_zero, Int.add_zero, Int.add_zero] at hstart
  exact hstart

include hruns

/-- When the first machine is done, the second one is about to run the rest, with the same data. -/
theorem Aligned.done (hrest : ∃ σ, Resting T e σ) :
    ∃ out' e', m'.Runs n out' e' ∧ e.SameData (SameBlock T T') e' ∧ Ready T' e' more ∧
      (m.WritesNoCode → out = out') := by
  obtain ⟨out', e', hruns', hparallel, htext⟩ := (h.parallel hdata).runs hruns
  obtain ⟨σ, hrest⟩ := hrest
  refine ⟨out', e', hruns', hparallel.sameData hrest.calls hrest.loops, ?_, htext⟩
  exact h.ends hruns.preserves hruns'.preserves hparallel.pc hrest.pc

/-- When the first machine fails, the second one does. -/
theorem Aligned.failed {f : Fault} {e₁ : Machine} (hfault : e.step = .fault f e₁)
    (hf : f.internal = false) :
    ∃ out' e' e₁', m'.Runs n out' e' ∧ e'.step = .fault f e₁' := by
  obtain ⟨out', e', hruns', hparallel, -⟩ := (h.parallel hdata).runs hruns
  obtain ⟨e₁', hfault'⟩ := hparallel.fault hfault hf
  exact ⟨out', e', e₁', hruns', hfault'⟩

end

end Tree

end StackLang
