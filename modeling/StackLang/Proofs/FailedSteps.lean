import Mathlib
import StackLang.Proofs.Equality
import StackLang.Proofs.Halting

/-!
# Instructions that fail

An instruction that fails leaves the machine as it was. Those that take operands off the stack check
them first, and their result finds room where an operand was. Only two may fail after that: a
division by zero, and an `exec` with too many calls pending. A builtin might fail as well when it is
run by `exec`, but never is: the code among the values is that of blocks.

* `Machine.Disciplined`: stacks have room, and code values are blocks.
* `Op.run_spares`: what an instruction does to such a machine if it fails.
* `Session.attempt`: a session runs an instruction, wherever it stands.
* `Machine.Withstands`: what is left of a machine after a failure.
* `Host.failure_spares_machine`: any session, in any state, withstands any instruction.
-/

namespace StackLang

/-! ## Code among the values -/

/-- Code gets on the stack by `push` only. -/
theorem Op.run_code (m : Machine) (op : Op) :
    (op.run m).Ensures fun m' => ∀ c, .code c ∈ m'.stack.items →
      .code c ∈ m.stack.items ∨ op = .push (.code c) := by
  by_cases hop : op = .define
  · rw [hop, Op.run]
    rcases runDefine_cases m with ⟨h, c, rest, -, hrun⟩ | ⟨f, hrun⟩
    · rw [hrun]
      exact fun c hc => Or.inl (List.mem_of_mem_drop hc)
    · rw [hrun]
      exact fun c => Or.inl
  · refine Op.run_ensures hop fun _ _ _ _ hstack _ _ _ => ?_
    exact fun c hc => (hstack _ hc).imp_right (·.resolve_right id)

namespace Machine

/-- What instructions rely on, in the state of a machine. -/
structure Disciplined (m : Machine) : Prop where
  /-- The stack is within its limit. With a limit below 0 it is empty. -/
  room : m.stackLimit ≠ 0 → (m.stack.height : Int) ≤ max m.stackLimit 0
  stack : ∀ c, .code c ∈ m.stack.items → ∃ start, c = .block start
  program : ∀ c, .push (.code c) ∈ m.program.ops → ∃ start, c = .block start

theorem Lowers.room {m m' : Machine} (h : m.Lowers m')
    (hm : m.stackLimit ≠ 0 → (m.stack.height : Int) ≤ max m.stackLimit 0) :
    m.stackLimit ≠ 0 → (m'.stack.height : Int) ≤ max m.stackLimit 0 := by
  intro hlimit
  have hle := hm hlimit
  have hstack := h.stack
  omega

/-- Who pushes only on a stack that is not full, leaves it within its limit. -/
theorem Intends.run_room {m : Machine} {run : Machine → Effect} (h : m.Intends run)
    (hm : m.stackLimit ≠ 0 → (m.stack.height : Int) ≤ max m.stackLimit 0) :
    (run m).Ensures fun m' => m.stackLimit ≠ 0 → (m'.stack.height : Int) ≤ max m.stackLimit 0 := by
  have hself : m.limit m.stackLimit m.callLimit = m := rfl
  cases h with
  | ends h hrun =>
    rw [← hself, hrun, hself, Effect.ensures_map]
    exact h.imp fun m' hm' => hm'.room hm
  | @pushes m' v h hrun =>
    rw [← hself, hrun, hself, push_limit]
    split
    · exact h.room hm
    · rename_i hfull
      rw [Stack.full_iff] at hfull
      intro hlimit
      show ((m'.stack.push v).height : Int) ≤ max m.stackLimit 0
      rw [Stack.height_push]
      omega
  | @calls m' start h hrun =>
    rw [← hself, hrun, hself, call_limit]
    split
    · exact h.room hm
    · exact h.room hm

theorem mem_of_fetch {m : Machine} {op : Op} (h : m.fetch? = some op) : op ∈ m.program.ops := by
  unfold fetch? at h
  split at h
  · exact Array.mem_of_getElem? h
  · cases h

theorem lasting_disciplined : Lasting Disciplined where
  run := by
    intro m op hfetch h
    have hroom := (op.run_intends m).run_room h.room
    refine (((op.run_code m).and hroom).and (op.run_preserves m)).imp fun m' hm' => ?_
    obtain ⟨⟨hcode', hroom'⟩, hpreserves⟩ := hm'
    refine ⟨?_, ?_, ?_⟩
    · rw [hpreserves.stackLimit]
      exact hroom'
    · intro c hc
      -- Code that was not on the stack before comes from the program, where it is a block's.
      rcases hcode' c hc with hc | rfl
      · exact h.stack c hc
      · exact h.program c (mem_of_fetch hfetch)
    · rw [hpreserves.program]
      exact h.program
  advance m h := ⟨h.room, h.stack, h.program⟩
  reset m h := by
    refine ⟨?_, by simp [reset], h.program⟩
    intro _
    exact Int.le_max_right m.stackLimit 0

end Machine

namespace Session

open StackLang.Tree

/-- The code that a source pushes is that of its blocks. -/
theorem load_disciplined (s : Session) (src : Bytes) (h : s.machine.Disciplined) :
    (s.load src).1.machine.Disciplined := by
  rcases s.load_changes src with ⟨t, a, hload, ⟨r, -, -, hmachine⟩, -⟩ |
    ⟨t, d, program, hload, hcompile, haccepted⟩
  · rw [hload, hmachine]
    exact ⟨h.room, h.stack, h.program⟩
  · obtain ⟨tree, new, blockCode, rootCode, -, hcompiled⟩ := compiled_of_compile hcompile []
    rw [hload, haccepted.machine]
    refine ⟨h.room, h.stack, ?_⟩
    intro c hc
    have hc' : .push (.code c) ∈ program.ops.toList := Array.mem_toList_iff.2 hc
    rw [hcompiled.ops, List.mem_append, List.mem_append] at hc'
    rcases hc' with hc' | hc' | hc'
    · exact h.program c (Array.mem_toList_iff.1 hc')
    · rcases hcompiled.filled.mem_cases hc' with heq | ⟨b, -, code, hbody, hc'⟩
      · cases heq
      · obtain ⟨-, start, -, -, -, rfl⟩ := hbody.push_code hc'
        exact ⟨start, rfl⟩
    · obtain ⟨-, start, -, -, -, rfl⟩ := hcompiled.assembled.push_code hc'
      exact ⟨start, rfl⟩

theorem new_disciplined (r : Registry) (settings : List Setting) :
    (new r settings).machine.Disciplined := by
  obtain ⟨r', words, a, b, hnew⟩ := new_machine r settings
  rw [hnew]
  refine ⟨?_, by simp, by simp⟩
  intro _
  exact Int.le_max_right a 0

end Session

/-! ## Instructions -/

/-- The fault is one that an instruction meets with its operands already taken. -/
def Fault.consumes (op : Op) : Fault → Bool
  | .divideByZero _ => true
  | .callOverflow _ => op = .exec
  | _ => false

/-- An effect of the instruction `op` on the machine `m` that leaves it as it is, unless the
instruction is carried out or has taken its operands. -/
inductive Machine.Spares (m : Machine) (op : Op) : Effect → Prop
  | next (m' : Machine) : m.Spares op (.next m')
  | emit (text : Bytes) : m.Spares op (.emit text m)
  | fault {f : Fault} (h : f.consumes op = false) : m.Spares op (.fault f m)
  | divides {n : Int64} {rest : List Value} (hop : op = .div)
    (h : m.stack.items = .int 0 :: .int n :: rest) :
    m.Spares op (.fault (.divideByZero n) (m.drop 2))
  | calls {start : Int} {rest : List Value} (hop : op = .exec)
    (h : m.stack.items = .code (.block start) :: rest) :
    m.Spares op (.fault (.callOverflow m.callLimit) (m.drop 1))
  | stuck : m.Spares op .stuck

namespace Machine

variable {m : Machine} {op : Op}

theorem push_spares (m : Machine) (v : Value) : m.Spares op (m.push v) := by
  unfold push
  split
  · exact .fault rfl
  · exact .next _

/-- There is room for a result where its operands were. -/
theorem result_spares (hm : m.Disciplined) {n : Nat} (hn : 1 ≤ n)
    (hlength : n ≤ m.stack.items.length) (r : Registry) (v : Value) :
    m.Spares op ({ m.drop n with symbols := r }.push v) := by
  -- A limit below 0 would be exceeded by the operands already.
  have hroom : ¬(m.stack.drop n).full m.stackLimit = true := by
    rw [Stack.full_iff]
    rintro ⟨hlimit, hfull⟩
    have hle := hm.room hlimit
    have hheight := m.stack.height_eq
    have hdrop : (m.stack.drop n).height = m.stack.height - n := Nat.zero_add _
    omega
  unfold push
  split
  · rename_i hfull
    exact absurd hfull hroom
  · exact .next _

theorem dispatch_spares (hop : op ≠ .exec) (m : Machine) (c : Code) :
    m.Spares op (m.dispatch c) := by
  cases c with
  | block start =>
    simp only [dispatch]
    split
    · exact .fault (decide_eq_false hop)
    · exact .next _
  | builtin i =>
    simp only [dispatch]
    cases Builtin.ofIndex? i with
    | none => exact .fault rfl
    | some b =>
      cases b with
      | print =>
        cases m.stack.items with
        | nil => exact .fault rfl
        | cons v rest => exact .emit _
      | nl => exact .emit _
      | stack => exact .emit _
  | other tag address => exact .fault rfl

theorem popIntegers_spares (word : String) {f : Int64 → Int64 → Machine → Effect}
    (hf : ∀ a b rest, m.stack.items = .int b :: .int a :: rest →
      m.Spares op (f a b (m.drop 2))) : m.Spares op (m.popIntegers word f) := by
  unfold popIntegers
  split
  · rename_i b a rest hitems
    split
    · exact hf _ _ rest hitems
    · exact .fault rfl
  · exact .fault rfl

theorem withLoop_spares {f : Loop → List Loop → Effect}
    (hf : ∀ l loops, m.Spares op (f l loops)) : m.Spares op (m.withLoop f) := by
  unfold withLoop
  split
  · exact hf _ _
  · exact .fault rfl

end Machine

/-- Whatever an instruction does, it spares a disciplined machine. -/
theorem Op.run_spares {m : Machine} (hm : m.Disciplined) (op : Op) :
    m.Spares op (op.run m) := by
  have hresult : ∀ {v u w rest}, m.stack.items = u :: w :: rest →
      m.Spares op ((m.drop 2).push v) := by
    intro v u w rest hitems
    exact Machine.result_spares hm (by omega) (by simp [hitems]) m.symbols v
  cases op with
  | push v => exact m.push_spares v
  | call h =>
    rw [Op.run]
    split
    · exact Machine.dispatch_spares (by simp) m _
    · exact .fault rfl
  | ret =>
    rw [Op.run]
    split
    · exact .next _
    · exact .fault rfl
  | define =>
    rw [Op.run, runDefine]
    split
    · split
      · exact .next _
      · exact .fault rfl
    · exact .fault rfl
  | add =>
    rw [Op.run, runAdd]
    split
    · rename_i hitems
      split
      · exact hresult hitems
      · exact Machine.result_spares hm (by omega) (by simp [hitems]) _ _
      · exact .fault rfl
    · exact .fault rfl
  | arith f =>
    rw [Op.run]
    exact Machine.popIntegers_spares _ fun a b rest hitems => hresult hitems
  | compare f =>
    rw [Op.run]
    exact Machine.popIntegers_spares _ fun a b rest hitems => hresult hitems
  | div =>
    rw [Op.run]
    refine Machine.popIntegers_spares _ fun a b rest hitems => ?_
    split
    · rename_i hzero
      exact .divides rfl (hzero ▸ hitems)
    · exact hresult hitems
  | exec =>
    rw [Op.run, runExec]
    split
    · rename_i v rest hitems
      split
      · rename_i c
        obtain ⟨start, rfl⟩ := hm.stack c (by simp [hitems])
        simp only [Machine.dispatch]
        split
        · exact .calls rfl hitems
        · exact .next _
      · exact .fault rfl
    · exact .fault rfl
  | loopEnter =>
    rw [Op.run, runLoopEnter]
    split
    · split
      · exact .next _
      · exact .fault rfl
    · exact .fault rfl
  | loopCond => exact Machine.withLoop_spares fun l loops => Machine.dispatch_spares (by simp) m _
  | loopBody => exact Machine.withLoop_spares fun l loops => Machine.dispatch_spares (by simp) m _
  | loopExit target =>
    refine Machine.withLoop_spares fun l loops => ?_
    dsimp only
    split
    · split
      · exact .next _
      · exact .next _
    · exact .fault rfl
  | jump target => exact .next _
  | other code => exact .stuck
  | dup =>
    rw [Op.run]
    split
    · exact m.push_spares _
    · exact .fault rfl
  | eq | connect f =>
    rw [Op.run]
    split
    · rename_i hitems
      exact hresult hitems
    · exact .fault rfl
  | drop | swap | rot | unrot | not | select =>
    rw [Op.run]
    split
    · exact .next _
    · exact .fault rfl

/-! ## Sessions -/

/-- What is left of the machine `m` when the instruction `op` has failed with `a`: all but values,
and these as well with two exceptions. A division by zero has taken its operands, and an `exec` with
too many calls pending has taken the code. -/
structure Machine.Withstands (m : Machine) (op : Op) (a : Abort) (m' : Machine) : Prop where
  others : m' = { m with stack := m'.stack }
  values :
    match op, a with
    | .div, .halt (some (.fault (.divideByZero n))) =>
      m.stack.items = .int 0 :: .int n :: m'.stack.items
    | .exec, .halt (some (.fault (.callOverflow _))) =>
      ∃ start, m.stack.items = .code (.block start) :: m'.stack.items
    | _, _ => m'.stack = m.stack

/-- A failure that is none of the exceptions. -/
theorem Machine.withstands_same {m : Machine} {op : Op} {a : Abort}
    (h : ∀ f, a = .halt (some (.fault f)) → f.consumes op = false) : m.Withstands op a m := by
  refine ⟨rfl, ?_⟩
  split
  · cases h _ rfl
  · cases h _ rfl
  · rfl

namespace Session

/-- Run an instruction in the place of the next one. -/
def attempt (s : Session) (op : Op) : Session × Option Abort :=
  match s.traceOp op with
  | (s, none) => s.perform (op.run s.machine)
  | aborted => aborted

theorem step_eq_attempt {s : Session} {op : Op} (h : s.machine.fetch? = some op) :
    s.step = s.attempt op := by
  rw [step, h]
  rfl

/-- Log and output do nothing to the machine, and what they fail with is no fault. -/
theorem perform_withstands {s u : Session} {op : Op} {a : Abort} {e : Effect}
    (hspares : s.machine.Spares op e) (h : s.perform e = (u, some a)) :
    s.machine.Withstands op a u.machine := by
  cases hspares with
  | next m' => cases h
  | emit text =>
    have hmachine := (s.write_idle text).machine
    have hstops := s.write_stops text
    rw [perform, show { s with machine := s.machine } = s from rfl] at h
    generalize s.write text = written at hmachine hstops h
    obtain ⟨t, _ | a'⟩ := written
    · cases h
    · cases h
      rw [hmachine]
      refine Machine.withstands_same ?_
      rintro f rfl
      cases hstops with
      | halt h =>
        obtain ⟨_, _, _, heq⟩ := h
        cases heq
  | @fault f hconsumes =>
    obtain ⟨t, hhalt, hmachine, -⟩ := s.halt_eq (.fault f)
    rw [perform, show { s with machine := s.machine } = s from rfl, hhalt] at h
    cases h
    rw [hmachine]
    refine Machine.withstands_same ?_
    rintro f ⟨⟩
    exact hconsumes
  | @divides n rest hop hitems =>
    obtain ⟨t, hhalt, hmachine, -⟩ :=
      { s with machine := s.machine.drop 2 }.halt_eq (.fault (.divideByZero n))
    rw [perform, hhalt] at h
    cases h
    subst hop
    rw [hmachine]
    refine ⟨rfl, ?_⟩
    show s.machine.stack.items = .int 0 :: .int n :: s.machine.stack.items.drop 2
    rw [hitems]
    rfl
  | @calls start rest hop hitems =>
    obtain ⟨t, hhalt, hmachine, -⟩ :=
      { s with machine := s.machine.drop 1 }.halt_eq (.fault (.callOverflow s.machine.callLimit))
    rw [perform, hhalt] at h
    cases h
    subst hop
    rw [hmachine]
    refine ⟨rfl, start, ?_⟩
    show s.machine.stack.items = .code (.block start) :: s.machine.stack.items.drop 1
    rw [hitems]
    rfl
  | stuck =>
    cases h
    exact Machine.withstands_same (by simp)

theorem attempt_withstands {s u : Session} (hs : s.machine.Disciplined) {op : Op} {a : Abort}
    (h : s.attempt op = (u, some a)) : s.machine.Withstands op a u.machine := by
  have hmachine := (s.traceOp_idle op).machine
  have hstops := s.traceOp_stops (fun _ => False) op
  unfold attempt at h
  generalize s.traceOp op = traced at hmachine hstops h
  obtain ⟨t, _ | a'⟩ := traced
  · have ht : t.machine = s.machine := hmachine
    rw [← ht] at hs ⊢
    exact perform_withstands (op.run_spares hs) h
  · cases h
    rw [hmachine]
    refine Machine.withstands_same ?_
    rintro f rfl
    cases hstops with
    | halt h => exact h.elim

end Session

/-! ## Hosts -/

namespace Host

/-- Sessions are set up in a host and evaluate sources, in any order and with any settings. Take one
of them, at rest or in any state of its next evaluation, and any instruction. If the instruction
fails, calls, loops, definitions, names, the program and the program counter are what they were; so
are the values, unless a division by zero has taken its operands or an `exec` its code. -/
theorem failure_spares_machine (names : List Name) (actions : List Action) {i : Nat}
    {s t : Session} (hs : (Host.after { symbols := .of names } actions).session? i = some s)
    (ht : t = s ∨ ∃ src, s.Visits src t) :
    (∀ op, t.machine.fetch? = some op → t.step = t.attempt op) ∧
    ∀ op a u, t.attempt op = (u, some a) → t.machine.Withstands op a u.machine := by
  have hrest : s.machine.Disciplined := by
    refine after_keeps Machine.lasting_disciplined Session.load_disciplined ?_
      Session.new_disciplined (sane_of_names names) ?_ actions hs
    · intro s r _ h
      exact ⟨h.room, h.stack, h.program⟩
    · intro j s' hs'
      simp [session?] at hs'
  have hdisciplined : t.machine.Disciplined := by
    rcases ht with rfl | ⟨src, hvisits⟩
    · exact hrest
    · exact hvisits.ensures Machine.lasting_disciplined (Session.load_disciplined s src hrest)
  refine ⟨fun op hfetch => Session.step_eq_attempt hfetch, ?_⟩
  intro op a u hattempt
  exact Session.attempt_withstands hdisciplined hattempt

/-- A division by zero at rest; then, in a word that is called, an `exec` with one call too many and
an addition of code. -/
theorem failure_spares_machine_exceptions :
    ∃ s t, (Host.after { symbols := .of [] } [.add true [.callLimit 1], .add true [],
        .eval 1 { polls := 9 } (lit "\"x\""),
        .eval 0 { polls := 9 } (lit "\x7b \x7b 1 \x7d exec \x7d :f def 5 0")]).session? 0 = some s ∧
      t ∈ s.course { polls := 9 } (lit "f") ∧
      (s.attempt .div).2 = some (.halt (some (.fault (.divideByZero 5)))) ∧
      (s.attempt .div).1.machine = { s.machine with stack := .ofList [] } ∧
      t.machine.fetch? = some .exec ∧
      t.machine.stack.items = [.code (.block 0), .int 0, .int 5] ∧
      t.step.2 = some (.halt (some (.fault (.callOverflow 1)))) ∧
      t.step.1.machine = { t.machine with stack := .ofList [.int 0, .int 5] } ∧
      (t.attempt .add).2 = some (.halt (some (.fault (.mismatch (.add .int .code))))) ∧
      (t.attempt .add).1.machine = t.machine := by
  have hfacts : ((Host.after { symbols := .of [] } [.add true [.callLimit 1], .add true [],
      .eval 1 { polls := 9 } (lit "\"x\""),
      .eval 0 { polls := 9 } (lit "\x7b \x7b 1 \x7d exec \x7d :f def 5 0")]).session? 0).map
        (fun s => (s.machine.stack.items, (s.attempt .div).2,
          (s.course { polls := 9 } (lit "f")).getLast?.map fun t =>
            (t.machine.stack.items, t.machine.fetch?, (t.attempt .exec).2, (t.attempt .add).2))) =
      some ([.int 0, .int 5], some (.halt (some (.fault (.divideByZero 5)))),
        some ([.code (.block 0), .int 0, .int 5], some .exec,
          some (.halt (some (.fault (.callOverflow 1)))),
          some (.halt (some (.fault (.mismatch (.add .int .code))))))) := by cbv
  obtain ⟨s, hs, hfacts⟩ := Option.map_eq_some_iff.1 hfacts
  simp only [Prod.mk.injEq] at hfacts
  obtain ⟨hitems, hdiv, hlast⟩ := hfacts
  obtain ⟨t, ht, hfacts⟩ := Option.map_eq_some_iff.1 hlast
  simp only [Prod.mk.injEq] at hfacts
  obtain ⟨hitems', hfetch, hexec, hadd⟩ := hfacts
  have hmem : t ∈ s.course { polls := 9 } (lit "f") := List.mem_of_getLast? ht
  obtain ⟨-, hrest⟩ := failure_spares_machine [] _ hs (Or.inl rfl)
  obtain ⟨hstep, hrunning⟩ := failure_spares_machine [] _ hs
    (Or.inr ⟨_, .running (Session.running_of_mem_course hmem)⟩)
  have hattempt := hstep .exec hfetch
  refine ⟨s, t, hs, hmem, hdiv, ?_, hfetch, hitems', hattempt ▸ hexec, ?_, hadd, ?_⟩
  · obtain ⟨hothers, hvalues⟩ := hrest .div _ _ (Prod.ext rfl hdiv)
    have hstack : (s.attempt .div).1.machine.stack = .ofList [] := by
      apply Stack.eq_of_items
      simpa [hitems] using hvalues
    rw [hothers, hstack]
  · obtain ⟨hothers, start, hvalues⟩ := hrunning .exec _ _ (Prod.ext rfl hexec)
    have hstack : (t.attempt .exec).1.machine.stack = .ofList [.int 0, .int 5] := by
      apply Stack.eq_of_items
      rw [hitems'] at hvalues
      exact (List.cons.inj hvalues).2.symm
    rw [hattempt, hothers, hstack]
  · obtain ⟨hothers, hvalues⟩ := hrunning .add _ _ (Prod.ext rfl hadd)
    rw [hothers, show (t.attempt .add).1.machine.stack = t.machine.stack from hvalues]

end Host

end StackLang
