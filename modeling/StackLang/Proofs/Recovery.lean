import Mathlib
import StackLang.Proofs.Effects

/-!
# Recovery from errors

However an evaluation fails, the session is fit for the next one: its stacks are empty, all code is
where it was, and the words are those that the instructions carried out have bound.

* `Session.Recovered`: a session after a failed evaluation.
* `Session.eval_recovers`: every evaluation that fails leaves such a session.
-/

namespace StackLang.Session

open StackLang.Tree

/-- The session `t` is what an evaluation of a source in `s` left when it failed. -/
structure Recovered (s : Session) (budget : Budget) (src : Bytes) (t : Session) : Prop where
  stack : t.machine.stack.items = []
  calls : t.machine.calls.items = []
  loops : t.machine.loops = []
  pc : t.machine.pc = t.machine.program.ops.size
  code : s.machine.program.ops.toList <+: t.machine.program.ops.toList
  /-- A block that a word refers to reaches up to its `ret`, and is as it was. -/
  blocks : ∀ word start, s.machine.words.find? word = some (.block start) →
    ∃ (p : Nat) (body : List Op), start = p ∧ (∀ op ∈ body, op ≠ .ret) ∧
      Holds s.machine.program.ops p (body ++ [.ret]) ∧
      Holds t.machine.program.ops p (body ++ [.ret])
  /-- Before the program ran, nothing was changed. -/
  refused : ∀ u a, s.load src = (u, some a) →
    t.machine.program = s.machine.program ∧ t.machine.words = s.machine.words
  loaded : ∀ u, s.load src = (u, none) → t.machine.program = u.machine.program
  words : t.machine.words = s.machine.words.defineAll (s.definitions budget src)
  indent : t.trace.map Trace.indent = s.trace.map Trace.indent

/-- The code of a block that a word refers to. -/
theorem Resting.block_of_word {T : Table} {m : Machine} {σ : State} (h : Resting T m σ)
    {word : Handle} {start : Int} (hfind : m.words.find? word = some (.block start)) :
    ∃ (p : Nat) (body : List Op), start = p ∧ (∀ op ∈ body, op ≠ .ret) ∧
      Holds m.program.ops p (body ++ [.ret]) := by
  obtain ⟨w, hname⟩ := h.sound.represents.bound hfind
  have hrefers := h.sound.represents.words hname
  rw [hfind] at hrefers
  generalize σ.words w = known at hrefers
  cases hrefers with
  | some hrefers =>
    cases hrefers with
    | @block n p items hn =>
      obtain ⟨code, hassembled, hcode⟩ := h.sound.linked.placed _ (List.mem_of_getElem? hn)
      exact ⟨p, code, rfl, fun op hop => (hassembled.op_ne hop).1, hcode⟩

/-- A run that is aborted and then reset, in a session whose blocks are in their places. -/
theorem run_recovered {T : Table} {s : Session} {σ : State} (hrest : Resting T s.machine σ)
    (budget : Budget) (src : Bytes) :
    s.Recovered budget src (s.run budget src).1.reset := by
  -- All but the code and the definitions is what a reset leaves of any session.
  have hrecovered : ∀ t : Session,
      s.machine.program.ops.toList <+: t.machine.program.ops.toList →
      (∀ u a, s.load src = (u, some a) →
        t.machine.program = s.machine.program ∧ t.machine.words = s.machine.words) →
      (∀ u, s.load src = (u, none) → t.machine.program = u.machine.program) →
      t.machine.words = s.machine.words.defineAll (s.definitions budget src) →
      t.trace.map Trace.indent = s.trace.map Trace.indent →
      s.Recovered budget src t.reset := by
    intro t hcode hrefused hloaded hwords hindent
    refine ⟨rfl, rfl, rfl, rfl, hcode, ?_, hrefused, hloaded, hwords, hindent⟩
    intro word start hfind
    obtain ⟨p, body, hstart, hbody, hold⟩ := Resting.block_of_word hrest hfind
    exact ⟨p, body, hstart, hbody, hold, hold.mono hcode⟩
  have hwords := s.run_words budget src
  rcases s.load_changes src with ⟨t, a, hload, ⟨r, -, -, hmachine⟩, -, -, htrace⟩ |
    ⟨t, d, program, hload, hcompile, haccepted⟩
  · rw [run, hload] at hwords ⊢
    refine hrecovered t ?_ (fun _ _ _ => ?_) (fun u hu => ?_) hwords (indent_of_unused htrace)
    · rw [hmachine]
    · rw [hmachine]
      exact ⟨rfl, rfl⟩
    · rw [hload] at hu
      cases hu
  · have hpreserves := t.finish_preserves budget
    have hprogram : t.machine.program = program := by rw [haccepted.machine]
    rw [run, hload] at hwords ⊢
    refine hrecovered _ ?_ (fun u a hu => ?_) (fun u hu => ?_) hwords ?_
    · rw [hpreserves.machine.program, hprogram]
      exact prefix_of_compile hcompile
    · rw [hload] at hu
      cases hu
    · rw [hload] at hu
      cases hu
      exact hpreserves.machine.program
    · exact hpreserves.indent.trans (indent_of_unused haccepted.trace)

/-- Whatever devices, log and limits a session has, and whatever it evaluated before: an evaluation
that fails, be it over the source, an instruction, the budget, a device or the log, leaves the
stacks empty and nothing to run. All code stays where it was, so the blocks of earlier words do. If
the program did not get to run, neither code nor words are changed; otherwise the words are the old
ones with what the `def` instructions carried out have bound. The lines of the log start as they did
before. -/
theorem eval_recovers (names : List Name) (settings : List Setting)
    (history : List (Budget × Bytes)) (s : Session)
    (hs : s = (new (.of names) settings).after history) (budget : Budget) (src : Bytes)
    (t : Session) (e : Error) (h : s.eval budget src = (t, some e)) :
    s.Recovered budget src t := by
  obtain ⟨T, σ, hrests⟩ := new_after_rests names settings history
  rw [← hs] at hrests
  have hrun := run_recovered hrests.resting budget src
  rcases s.eval_cases budget src with heval | ⟨a, e', -, heval⟩
  · rw [h] at heval
    cases heval
  · rw [h] at heval
    cases heval
    exact hrun

/-- A word is bound anew before the device panics at its second write: it keeps that definition, and
the block of its first one is still in place. -/
theorem eval_recovers_panicking : ∃ s t,
    s = (new (.of []) [.output (some (.plain { behavior := {
      write := fun call n => if call = 2 then .panic (lit "gone") else .done n none
      flush := fun _ => .done 0 none } }))]).after [({ polls := 9 }, lit "\x7b 1 \x7d :one def")] ∧
    s.eval { polls := 99 } (lit "1 print \x7b 2 \x7d :one def 3 print") =
      (t, some (.panicked (lit "VM") (.text (lit "gone")))) ∧
    s.machine.words.find? 4 = some (.block 0) ∧ t.machine.words.find? 4 = some (.block 5) ∧
    s.Recovered { polls := 99 } (lit "1 print \x7b 2 \x7d :one def 3 print") t := by
  obtain ⟨s, t, hs, heval, hbefore, hafter⟩ : ∃ s t,
      s = (new (.of []) [.output (some (.plain { behavior := {
        write := fun call n => if call = 2 then .panic (lit "gone") else .done n none
        flush := fun _ => .done 0 none } }))]).after
          [({ polls := 9 }, lit "\x7b 1 \x7d :one def")] ∧
      s.eval { polls := 99 } (lit "1 print \x7b 2 \x7d :one def 3 print") =
        (t, some (.panicked (lit "VM") (.text (lit "gone")))) ∧
      s.machine.words.find? 4 = some (.block 0) ∧ t.machine.words.find? 4 = some (.block 5) :=
    ⟨_, _, rfl, by cbv, by cbv, by cbv⟩
  exact ⟨s, t, hs, heval, hbefore, hafter, eval_recovers [] _ _ s hs _ _ t _ heval⟩

end StackLang.Session
