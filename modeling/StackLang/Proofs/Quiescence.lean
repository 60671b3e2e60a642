import Mathlib
import StackLang.Proofs.Sessions

/-!
# Calls and loops are balanced

A block that is called and gets to its `ret` has cleared away every call and every loop of its own:
the machine goes on behind the calling instruction with the calls and the loops it had there. So
nothing is pending when an evaluation succeeds.

* `Machine.Matches`: a block is called, and another machine stands at the `ret` of this call.
* `Tree.Governed.resumes`: what the `ret` leads to.
* `Session.balanced`: both statements, for all that a session can do.
-/

namespace StackLang.Machine

/-- One machine leads to another without the number of pending calls falling to `height`. -/
def Above (height : Nat) : Machine → Machine → Prop :=
  Relation.ReflTransGen fun m m' => (∃ out, m.Goes out m') ∧ height < m'.calls.height

/-- The next instruction of `m` calls a block, and `m'` stands at the `ret` that ends this call: the
address of the instruction was among the pending calls all the time, and is the topmost again. -/
structure Matches (m m' : Machine) : Prop where
  called : ∃ out m₁, m.Goes out m₁ ∧ m₁.calls.items = m.pc :: m.calls.items ∧
    Above m.calls.height m₁ m'
  ret : m'.fetch? = some .ret
  height : m'.calls.height = m.calls.height + 1

/-- A machine that goes anywhere stands at an instruction. -/
theorem Goes.address {m m' : Machine} {out : Bytes} (h : m.Goes out m') :
    ∃ p : Nat, m.pc = p ∧ p < m.program.ops.size := by
  have hfetch : m.fetch? ≠ none := by
    intro hnone
    have hstuck : m.step = .stuck := by rw [Machine.step, hnone]
    cases h with
    | next h => cases hstuck.symm.trans h
    | emit h => cases hstuck.symm.trans h
  unfold Machine.fetch? at hfetch
  split at hfetch
  · rename_i p hpc
    refine ⟨p, hpc, ?_⟩
    by_contra hge
    exact hfetch (Array.getElem?_eq_none (Nat.le_of_not_lt hge))
  · exact absurd rfl hfetch

/-- A `ret` drops the topmost call. -/
theorem Goes.ret {m m' : Machine} {out : Bytes} (h : m.Goes out m')
    (hfetch : m.fetch? = some .ret) {a : Int} {calls : List Int}
    (hcalls : m.calls.items = a :: calls) :
    m'.calls.items = calls ∧ m'.pc = m.behind a ∧ m'.loops = m.loops := by
  have hstep : m.step = .next { m with calls := m.calls.drop 1, pc := m.behind a } := by
    rw [Machine.step, hfetch]
    simp only [Op.run, hcalls]
  cases h with
  | next h =>
    cases hstep.symm.trans h
    exact ⟨by rw [Stack.items_drop, hcalls]; rfl, rfl, rfl⟩
  | emit h => cases hstep.symm.trans h

end StackLang.Machine

namespace StackLang.Tree

variable {r : Registry} {T : Table} {S : Setup} {m m' : Machine}

/-- While a called block runs, its own calls and loops lie above those of its caller. -/
theorem Governed.above {stop : Nat} {a : Int} {calls : List Int} {loops : List Loop}
    (hret : S.ops[stop]? = some .ret) (h : Governed r T S stop (a :: calls) loops m)
    (hpath : Machine.Above calls.length m m') : Governed r T S stop (a :: calls) loops m' := by
  induction hpath with
  | refl => exact h
  | @tail b c _ hstep ih =>
    obtain ⟨⟨out, hgoes⟩, hheight⟩ := hstep
    refine (ih.goes ?_ hgoes).governed
    -- At its end the block would drop the call it was called by.
    by_contra hend
    obtain ⟨hpc, hcalls⟩ : b.pc = stop ∧ b.calls.items = a :: calls := by
      simpa [not_or] using hend
    have hfetch : b.fetch? = some .ret := by
      rw [Machine.fetch?, hpc, ih.program]
      exact hret
    have hdropped := (hgoes.ret hfetch hcalls).1
    rw [c.calls.height_eq, hdropped] at hheight
    exact Nat.lt_irrefl _ hheight

/-- The `ret` of a call goes on behind the calling instruction, and restores calls and loops. -/
theorem Governed.resumes (h : Governed r T S S.ops.size [] [] m) (hm : m.Matches m') :
    ∃ m₃, m'.step = .next m₃ ∧ m₃.pc = m.pc + 1 ∧ m₃.calls = m.calls ∧ m₃.loops = m.loops := by
  obtain ⟨⟨out, m₁, hgoes, hcalls, hpath⟩, hret, hheight⟩ := hm
  obtain ⟨p, hpc, hlt⟩ := hgoes.address
  have hbusy : m.pc ≠ S.ops.size ∨ m.calls.items ≠ [] := by
    rw [h.program] at hlt
    exact Or.inl (by omega)
  obtain ⟨stop, hstop, hcalled⟩ := (h.goes hbusy hgoes).called hcalls
  rw [m.calls.height_eq] at hpath
  have habove := hcalled.above hstop hpath
  obtain ⟨-, hcalls', hloops'⟩ := habove.at_bottom hret (by
    rw [← m'.calls.height_eq, hheight, m.calls.height_eq, List.length_cons])
  refine ⟨{ m' with calls := m'.calls.drop 1, pc := m'.behind m.pc }, ?_, ?_, ?_, hloops'⟩
  · rw [Machine.step, hret]
    simp only [Op.run, hcalls']
  · have hlt' : p < m'.program.ops.size := by rwa [habove.program, ← h.program]
    rw [hpc]
    exact behind_of_lt hlt'
  · refine Stack.eq_of_items ?_
    rw [Stack.items_drop, hcalls']
    rfl

end StackLang.Tree

namespace StackLang.Session

open StackLang.Tree

/-- However a session was set up and whatever it evaluated before: an evaluation that succeeds
leaves no call and no loop pending, and stands at the end of the program. And in every run, a called
block that gets to its `ret` goes on behind the instruction that called it, with the calls and the
loops that were pending there. -/
theorem balanced (names : List Name) (settings : List Setting) (history : List (Budget × Bytes))
    (src : Bytes) :
    (∀ budget t, ((new (.of names) settings).after history).eval budget src = (t, none) →
      t.machine.calls.items = [] ∧ t.machine.loops = [] ∧
        t.machine.pc = t.machine.program.ops.size) ∧
    ∀ t m, ((new (.of names) settings).after history).Running src t → t.machine.Matches m →
      ∃ m', m.step = .next m' ∧ m'.pc = t.machine.pc + 1 ∧ m'.calls = t.machine.calls ∧
        m'.loops = t.machine.loops := by
  obtain ⟨T, σ, hrests⟩ := new_after_rests names settings history
  constructor
  · intro budget t heval
    obtain ⟨⟨T', σ', hresting, -⟩, -⟩ := eval_evaluated hrests.resting budget src
    rw [heval] at hresting
    exact ⟨hresting.calls, hresting.loops, hresting.pc⟩
  · intro t m hrunning hmatches
    obtain ⟨r, tree, new, S, -, -, hgoverned, -⟩ := hrunning.governed hrests.resting
    exact hgoverned.resumes hmatches

/-- A word that was defined before is called: the call ends at a `ret`, and the evaluation succeeds.
-/
theorem balanced_one : ∃ t₀ t m,
    ((new (.of []) []).after [({ polls := 9 }, lit "\x7b 1 \x7d :one def")]).eval { polls := 9 }
      (lit "one") = (t₀, none) ∧
    ((new (.of []) []).after [({ polls := 9 }, lit "\x7b 1 \x7d :one def")]).Running (lit "one") t ∧
    t.machine.Matches m ∧
    (t₀.machine.calls.items = [] ∧ t₀.machine.loops = [] ∧
      t₀.machine.pc = t₀.machine.program.ops.size) ∧
    ∃ m', m.step = .next m' ∧ m'.pc = t.machine.pc + 1 ∧ m'.calls = t.machine.calls ∧
      m'.loops = t.machine.loops := by
  obtain ⟨t₀, heval⟩ : ∃ t₀,
      ((new (.of []) []).after [({ polls := 9 }, lit "\x7b 1 \x7d :one def")]).eval { polls := 9 }
        (lit "one") = (t₀, none) := ⟨_, by cbv⟩
  obtain ⟨t, m₁, m, hload, hstep, hcalls, hstep₁, habove, hret, hheight⟩ : ∃ t m₁ m,
      ((new (.of []) []).after [({ polls := 9 }, lit "\x7b 1 \x7d :one def")]).load (lit "one") =
        (t, none) ∧
      t.machine.step = .next m₁ ∧ m₁.calls.items = t.machine.pc :: t.machine.calls.items ∧
      m₁.step = .next m ∧ t.machine.calls.height < m.calls.height ∧ m.fetch? = some .ret ∧
      m.calls.height = t.machine.calls.height + 1 :=
    ⟨_, _, _, by cbv, by cbv, by cbv, by cbv, by decide, by cbv, by cbv⟩
  have hrunning := Running.load hload
  have hmatches : (t.setIndent (t.indent ++ lit "\t")).machine.Matches m :=
    ⟨⟨_, m₁, .next hstep, hcalls, .single ⟨⟨_, .next hstep₁⟩, habove⟩⟩, hret, hheight⟩
  have hbalanced := balanced [] [] [({ polls := 9 }, lit "\x7b 1 \x7d :one def")] (lit "one")
  exact ⟨t₀, _, m, heval, hrunning, hmatches, hbalanced.1 _ t₀ heval,
    hbalanced.2 _ m hrunning hmatches⟩

end StackLang.Session
