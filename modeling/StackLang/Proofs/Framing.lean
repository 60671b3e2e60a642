import Mathlib
import StackLang.Proofs.Invariants
import StackLang.Proofs.Refinement

/-!
# Values below the ones in use

An instruction reaches for its operands from the top of the stack, and fails if there are too few.
So one that is carried out does the same on top of any other values, and leaves these alone; only
the builtin `stack` shows them. The same is true of whole evaluations.

* `Machine.atop`: the machine with more values at the bottom of its stack.
* `Op.run_local`: what they make of an instruction.
* `Machine.invokes`: the next instruction runs a builtin.
* `Session.Framed`, `loop_framed`: what they make of a run.
* `Session.eval_frames`: what they make of an evaluation.
-/

namespace StackLang

/-- The machine with its values on top of others, which are given from bottom to top. -/
def Machine.atop (base : List Value) (m : Machine) : Machine :=
  { m with stack := .ofList (base ++ m.values).reverse }

/-- The effect of an instruction that is carried out, and its effect on top of other values. The two
may write different texts if not `same`. -/
inductive Effect.Frames (base : List Value) (same : Prop) : Effect → Effect → Prop
  | next (m : Machine) : Frames base same (.next m) (.next (m.atop base))
  | emit {text text' : Bytes} (m : Machine) (h : same → text' = text) :
    Frames base same (.emit text m) (.emit text' (m.atop base))
  | fault (f : Fault) (m : Machine) (e : Effect) : Frames base same (.fault f m) e
  | stuck (e : Effect) : Frames base same .stuck e

namespace Machine

/-- What is done to the machine `m` does not depend on values further down. -/
def Local (base : List Value) (same : Prop) (m : Machine) (run : Machine → Effect) : Prop :=
  Effect.Frames base same (run m) (run (m.atop base))

/-! ## Parts of instructions -/

section

variable {base : List Value} {same : Prop} {m : Machine}

@[simp] theorem items_atop (base : List Value) (m : Machine) :
    (m.atop base).stack.items = m.stack.items ++ base.reverse := by
  simp [atop, values]

theorem values_atop (base : List Value) (m : Machine) :
    (m.atop base).values = base ++ m.values := by
  simp [values]

theorem Local.imp {same' : Prop} {run : Machine → Effect} (h : m.Local base same run)
    (himp : same' → same) : m.Local base same' run := by
  unfold Local at h ⊢
  generalize run m = e at h ⊢
  generalize run (m.atop base) = e' at h ⊢
  cases h with
  | next m => exact .next m
  | emit m h => exact .emit m (h ∘ himp)
  | fault f m _ => exact .fault f m _
  | stuck _ => exact .stuck _

/-- Values that are replaced, and are there, are not among those at the bottom. -/
theorem stack_replace_atop {n : Nat} (hn : n ≤ m.stack.items.length) (vs : List Value) :
    (m.atop base).stack.replace n vs =
      .ofList (base ++ (m.stack.replace n vs).items.reverse).reverse := by
  apply Stack.eq_of_items
  simp [List.drop_append_of_le_length hn]

theorem drop_atop {n : Nat} (hn : n ≤ m.stack.items.length) :
    (m.atop base).drop n = (m.drop n).atop base := by
  unfold drop Stack.drop
  rw [stack_replace_atop hn]
  rfl

theorem replace_local {n : Nat} (hn : n ≤ m.stack.items.length) (vs : List Value) :
    m.Local base same fun m => m.replace n vs := by
  show Effect.Frames base same (m.replace n vs) ((m.atop base).replace n vs)
  unfold replace
  rw [stack_replace_atop hn]
  exact .next _

theorem push_frames (hlimit : m.stackLimit = 0) (v : Value) :
    Effect.Frames base same (m.push v) ((m.atop base).push v) := by
  have hfull : ∀ s : Stack Value, s.full 0 = false := fun s => rfl
  have hlimit' : (m.atop base).stackLimit = 0 := hlimit
  unfold push
  rw [hlimit, hlimit', hfull, hfull, if_neg Bool.false_ne_true, if_neg Bool.false_ne_true]
  unfold Stack.push
  rw [stack_replace_atop (Nat.zero_le _)]
  exact .next _

/-- A result in place of operands. -/
theorem result_local (hlimit : m.stackLimit = 0) {n : Nat} (hn : n ≤ m.stack.items.length)
    (v : Value) : m.Local base same fun m => (m.drop n).push v := by
  show Effect.Frames base same ((m.drop n).push v) (((m.atop base).drop n).push v)
  rw [drop_atop hn]
  exact push_frames (m := m.drop n) hlimit v

/-- Of the builtins, only `stack` shows more than the topmost value. -/
theorem dispatch_frames (m : Machine) (c : Code) :
    Effect.Frames base (∀ i, c = .builtin i → Builtin.ofIndex? i ≠ some .stack) (m.dispatch c)
      ((m.atop base).dispatch c) := by
  cases c with
  | block start =>
    unfold dispatch
    simp only
    split
    · exact .fault _ _ _
    · rename_i hfull
      rw [if_neg (show ¬(m.atop base).calls.full (m.atop base).callLimit = true from hfull)]
      exact .next _
  | builtin i =>
    unfold dispatch
    simp only
    cases hb : Builtin.ofIndex? i with
    | none => exact .fault _ _ _
    | some b =>
      cases b with
      | print =>
        cases hitems : m.stack.items with
        | nil => exact .fault _ _ _
        | cons v rest =>
          simp only [items_atop, hitems, List.cons_append]
          exact .emit m fun _ => rfl
      | nl => exact .emit m fun _ => rfl
      | stack => exact .emit m fun hsame => absurd hb (hsame i rfl)
  | other tag address => exact .fault _ _ _

theorem withLoop_local {f : Machine → Loop → List Loop → Effect}
    (hf : ∀ l loops, m.loops = l :: loops → m.Local base same fun m => f m l loops) :
    m.Local base same fun m => m.withLoop (f m) := by
  have hloops : (m.atop base).loops = m.loops := rfl
  dsimp only [Local, withLoop]
  rw [hloops]
  cases h : m.loops with
  | nil => exact .fault _ _ _
  | cons l loops => exact hf l loops h

theorem local_one (word : String) {f : Machine → Value → Effect}
    (hf : ∀ v rest, m.stack.items = v :: rest → m.Local base same fun m => f m v) :
    m.Local base same fun m =>
      match m.stack.items with
      | v :: _ => f m v
      | [] => m.underflow word 1 := by
  dsimp only [Local]
  rw [items_atop]
  rcases hitems : m.stack.items with _ | ⟨v, rest⟩
  case cons => exact hf v rest hitems
  all_goals exact .fault _ _ _

theorem local_two (word : String) {f : Machine → Value → Value → Effect}
    (hf : ∀ u v, 2 ≤ m.stack.items.length → m.Local base same fun m => f m u v) :
    m.Local base same fun m =>
      match m.stack.items with
      | v :: u :: _ => f m u v
      | _ => m.underflow word 2 := by
  dsimp only [Local]
  rw [items_atop]
  rcases hitems : m.stack.items with _ | ⟨v, _ | ⟨u, rest⟩⟩
  case cons.cons => exact hf u v (by simp [hitems])
  all_goals exact .fault _ _ _

theorem local_three (word : String) {f : Machine → Value → Value → Value → Effect}
    (hf : ∀ u v w, 3 ≤ m.stack.items.length → m.Local base same fun m => f m u v w) :
    m.Local base same fun m =>
      match m.stack.items with
      | w :: v :: u :: _ => f m u v w
      | _ => m.underflow word 3 := by
  dsimp only [Local]
  rw [items_atop]
  rcases hitems : m.stack.items with _ | ⟨w, _ | ⟨v, _ | ⟨u, rest⟩⟩⟩
  case cons.cons.cons => exact hf u v w (by simp [hitems])
  all_goals exact .fault _ _ _

theorem popIntegers_local (word : String) {f : Int64 → Int64 → Machine → Effect}
    (hf : ∀ x y, 2 ≤ m.stack.items.length → m.Local base same fun m => f x y (m.drop 2)) :
    m.Local base same fun m => m.popIntegers word f := by
  refine local_two word fun u v hlength => ?_
  cases u <;> cases v
  case int.int x y => exact hf x y hlength
  all_goals exact .fault _ _ _

end

end Machine

/-! ## Instructions -/

namespace Op

open Machine

variable {base : List Value} {same : Prop} {m : Machine}

theorem runAdd_local (hlimit : m.stackLimit = 0) : m.Local base same runAdd := by
  refine local_two "+" fun u v hlength => ?_
  cases u <;> cases v
  case int.int x y => exact result_local hlimit hlength _
  case str.str x y =>
    let grown := m.symbols.intern (m.symbols.joined x y)
    have hdrop : { (m.atop base).drop 2 with symbols := grown.1 } =
        Machine.atop base { m.drop 2 with symbols := grown.1 } := by
      rw [drop_atop hlength]
      rfl
    have hpush : Effect.Frames base same ({ m.drop 2 with symbols := grown.1 }.push (.str grown.2))
        ({ (m.atop base).drop 2 with symbols := grown.1 }.push (.str grown.2)) := by
      rw [hdrop]
      exact push_frames (m := { m.drop 2 with symbols := grown.1 }) hlimit _
    exact hpush
  all_goals exact .fault _ _ _

theorem runDefine_local : m.Local base same runDefine := by
  refine local_two "def" fun u v hlength => ?_
  cases u <;> cases v
  case code.sym c h =>
    unfold Local
    simp only [drop_atop hlength]
    exact .next _
  all_goals exact .fault _ _ _

theorem runLoopEnter_local : m.Local base same runLoopEnter := by
  refine local_two "while" fun u v hlength => ?_
  cases u <;> cases v
  case code.code c c' =>
    unfold Local
    simp only [drop_atop hlength]
    exact .next _
  all_goals exact .fault _ _ _

/-- The code that an instruction runs, if it runs any. -/
def started (m : Machine) : Op → Option Code
  | call h => m.words.find? h
  | exec =>
    match m.stack.items with
    | .code c :: _ => some c
    | _ => none
  | loopCond => m.loops.head?.map Loop.cond
  | loopBody => m.loops.head?.map Loop.body
  | _ => none

/-- An instruction does the same on top of any values, unless it shows all of them. -/
theorem run_local (hlimit : m.stackLimit = 0) (op : Op) :
    m.Local base (∀ i, op.started m = some (.builtin i) → Builtin.ofIndex? i ≠ some .stack)
      fun m => op.run m := by
  cases op with
  | push v => exact push_frames hlimit v
  | call h =>
    have hwords : (m.atop base).words = m.words := rfl
    unfold Local
    simp only [Op.run, started, hwords]
    cases m.words.find? h with
    | none => exact .fault _ _ _
    | some c => simpa using dispatch_frames m c
  | ret =>
    have hcalls : (m.atop base).calls = m.calls := rfl
    unfold Local
    simp only [Op.run, hcalls]
    cases m.calls.items with
    | nil => exact .fault _ _ _
    | cons address rest => exact .next _
  | define => exact runDefine_local
  | add => exact runAdd_local hlimit
  | arith f =>
    simp only [Op.run]
    exact popIntegers_local f.word fun x y hlength => result_local hlimit hlength _
  | compare f =>
    simp only [Op.run]
    exact popIntegers_local f.word fun x y hlength => result_local hlimit hlength _
  | div =>
    simp only [Op.run]
    refine popIntegers_local "/" fun x y hlength => ?_
    by_cases hy : y = 0
    · simp only [if_pos hy]
      exact .fault _ _ _
    · simp only [if_neg hy]
      exact result_local hlimit hlength _
  | eq =>
    simp only [Op.run]
    exact local_two "=" fun u v hlength => result_local hlimit hlength _
  | drop =>
    simp only [Op.run]
    exact local_one "." fun v rest hitems => replace_local (by simp [hitems]) _
  | dup =>
    simp only [Op.run]
    exact local_one "dup" fun v rest hitems => push_frames hlimit v
  | swap =>
    simp only [Op.run]
    exact local_two "swap" fun u v hlength => replace_local hlength _
  | rot =>
    simp only [Op.run]
    exact local_three "rot" fun u v w hlength => replace_local hlength _
  | unrot =>
    simp only [Op.run]
    exact local_three "-rot" fun u v w hlength => replace_local hlength _
  | not =>
    simp only [Op.run]
    exact local_one "not" fun v rest hitems => replace_local (by simp [hitems]) _
  | connect f =>
    simp only [Op.run]
    exact local_two f.word fun u v hlength => result_local hlimit hlength _
  | exec =>
    simp only [Op.run]
    refine local_one "exec" fun v rest hitems => ?_
    have hdrop : (m.atop base).drop 1 = (m.drop 1).atop base := drop_atop (by simp [hitems])
    cases v
    case code c =>
      unfold Local
      simp only [started, hitems, hdrop]
      simpa using dispatch_frames (m.drop 1) c
    all_goals exact .fault _ _ _
  | select =>
    simp only [Op.run]
    exact local_three "if" fun u v w hlength => replace_local hlength _
  | loopEnter => exact runLoopEnter_local
  | loopCond =>
    simp only [Op.run]
    refine withLoop_local fun l loops hloops => ?_
    refine Local.imp (dispatch_frames m l.cond) fun hsame i hcode => hsame i ?_
    simp only [started, hloops, List.head?_cons, Option.map_some, hcode]
  | loopExit target =>
    simp only [Op.run]
    refine withLoop_local fun l loops hloops => ?_
    refine local_one "while" fun v rest hitems => ?_
    have hlength : 1 ≤ m.stack.items.length := by simp [hitems]
    cases v.truth with
    | true => exact replace_local hlength _
    | false =>
      unfold Local
      simp only [drop_atop hlength]
      exact .next _
  | loopBody =>
    simp only [Op.run]
    refine withLoop_local fun l loops hloops => ?_
    refine Local.imp (dispatch_frames m l.body) fun hsame i hcode => hsame i ?_
    simp only [started, hloops, List.head?_cons, Option.map_some, hcode]
  | jump target => exact .next _
  | other code => exact .stuck _

end Op

namespace Machine

/-- The next instruction runs this builtin. -/
def invokes (m : Machine) (b : Builtin) : Bool :=
  match m.fetch?.bind (Op.started m) with
  | some (.builtin i) => Builtin.ofIndex? i = some b
  | _ => false

theorem step_local {base : List Value} {m : Machine} (hlimit : m.stackLimit = 0) :
    m.Local base (m.invokes .stack = false) step := by
  have hfetch : (m.atop base).fetch? = m.fetch? := rfl
  dsimp only [Local, step]
  rw [hfetch]
  cases hop : m.fetch? with
  | none => exact .stuck _
  | some op =>
    refine Local.imp (op.run_local hlimit) fun hquiet i hstarted hstack => ?_
    simp [invokes, hop, hstarted, hstack] at hquiet

/-- A machine that goes on does so on top of other values. -/
theorem Goes.atop {m m' : Machine} {out : Bytes} (h : m.Goes out m') (hlimit : m.stackLimit = 0)
    (base : List Value) :
    ∃ out', (m.atop base).Goes out' (m'.atop base) ∧
      (m.invokes .stack = false → out' = out) := by
  have hlocal : Effect.Frames base (m.invokes .stack = false) m.step (m.atop base).step :=
    step_local hlimit
  generalize heffect : (m.atop base).step = effect at hlocal
  cases h with
  | next hstep =>
    rw [hstep] at hlocal
    cases hlocal with
    | next => exact ⟨[], .next heffect, fun _ => rfl⟩
  | emit hstep =>
    rw [hstep] at hlocal
    cases hlocal with
    | emit _ hsame => exact ⟨_, .emit heffect, fun hquiet => by rw [hsame hquiet]⟩

end Machine

namespace Session

/-! ## Runs -/

/-- The session with its values on top of others. -/
def atop (base : List Value) (s : Session) : Session := { s with machine := s.machine.atop base }

/-- Two reliable sessions without a limit on values. The machine of the second one is that of the
first, with its values on top of others. -/
structure Mirrors (base : List Value) (s s' : Session) : Prop where
  machine : s'.machine = s.machine.atop base
  stackLimit : s.machine.stackLimit = 0
  reliable : s.Reliable
  reliable' : s'.Reliable

/-- Both sessions go on to `t` and `t'`, and pass through states that mirror one another. They write
the same unless `stack` is run. -/
structure Framed (base : List Value) (s s' : Session) (states states' : List Session)
    (t t' : Session) : Prop where
  machine : t'.machine = t.machine.atop base
  course : states'.map Session.machine = states.map fun u => u.machine.atop base
  delivers : ∃ out out', s.Delivers out t ∧ s'.Delivers out' t' ∧
    ((∀ u ∈ states, u.machine.invokes .stack = false) → out' = out)

variable {base : List Value} {s s' t u : Session}

theorem Mirrors.setIndent (h : Mirrors base s s') (indent indent' : Bytes) :
    Mirrors base (s.setIndent indent) (s'.setIndent indent') :=
  ⟨h.machine, h.stackLimit, setIndent_reliable h.reliable _, setIndent_reliable h.reliable' _⟩

/-- An instruction that a reliable session carries out. -/
theorem goes_of_step (h : s.Reliable) (hstep : s.step = (t, none)) :
    ∃ out, s.machine.Goes out t.machine ∧ s.Delivers out t := by
  have hcarried := step_carried h
  rw [hstep] at hcarried
  generalize heffect : s.machine.step = effect at hcarried
  cases hcarried with
  | next hmachine hdelivers => exact ⟨[], hmachine ▸ .next heffect, hdelivers⟩
  | emit hmachine hdelivers => exact ⟨_, hmachine ▸ .emit heffect, hdelivers⟩

theorem step_mirrors (h : Mirrors base s s') (hstep : s.step = (t, none)) :
    ∃ t', s'.step = (t', none) ∧ Mirrors base t t' ∧
      ∃ out out', s.Delivers out t ∧ s'.Delivers out' t' ∧
        (s.machine.invokes .stack = false → out' = out) := by
  obtain ⟨out, hgoes, hdelivers⟩ := goes_of_step h.reliable hstep
  obtain ⟨out', hgoes', hsame⟩ := hgoes.atop h.stackLimit base
  rw [← h.machine] at hgoes'
  obtain ⟨-, t', hstep', hmachine, hdelivers'⟩ := step_goes h.reliable' hgoes'
  have hpreserves := s.step_preserves.machine
  rw [hstep] at hpreserves
  exact ⟨t', hstep', ⟨hmachine, hpreserves.stackLimit.trans h.stackLimit,
    hdelivers.reliable h.reliable, hdelivers'.reliable h.reliable'⟩,
    out, out', hdelivers, hdelivers', hsame⟩

/-- A run that nothing stops goes the same way on top of other values. -/
theorem loop_framed {i : Interruption} {polls : Nat} (h : Mirrors base s s')
    (hloop : s.loop i polls = (t, none)) :
    ∃ t', s'.loop i polls = (t', none) ∧
      Framed base s s' (s.passes polls) (s'.passes polls) t t' := by
  fun_induction loop i polls s generalizing s' with
  | case1 s hrunning u hstep =>
    -- The polls are used up: such a loop ends with an error.
    have hhalt := u.halt_abort (.interrupted i)
    rw [hloop] at hhalt
    cases hhalt
  | case2 s hrunning u hstep polls ih =>
    have hrunning' : s'.machine.running = true := by
      rw [h.machine]
      exact hrunning
    obtain ⟨u', hstep', hmirrors, out₁, out₁', hfirst, hfirst', hsame₁⟩ := step_mirrors h hstep
    obtain ⟨t', hloop', hmachine, hstates, out₂, out₂', hrest, hrest', hsame₂⟩ :=
      ih hmirrors hloop
    rw [loop, if_pos hrunning', hstep', passes, passes, if_pos hrunning, if_pos hrunning', hstep,
      hstep']
    refine ⟨t', hloop', hmachine, ?_, out₁ ++ out₂, out₁' ++ out₂', hfirst.trans hrest,
      hfirst'.trans hrest', ?_⟩
    · rw [List.map_cons, List.map_cons, hstates, h.machine]
    · intro hquiet
      rw [hsame₁ (hquiet s List.mem_cons_self),
        hsame₂ fun v hv => hquiet v (List.mem_cons_of_mem _ hv)]
  | case3 polls s hrunning hne => exact absurd hloop (hne t)
  | case4 polls s hrunning =>
    cases hloop
    have hrunning' : ¬s'.machine.running = true := by
      rw [h.machine]
      exact hrunning
    rw [loop, if_neg hrunning', passes, passes, if_neg hrunning, if_neg hrunning']
    refine ⟨s', rfl, h.machine, ?_, [], [], h.reliable.delivers (.refl _) rfl,
      h.reliable'.delivers (.refl _) rfl, fun _ => rfl⟩
    rw [List.map_singleton, List.map_singleton, h.machine]

/-! ## Evaluations -/

theorem finish_framed (h : Mirrors base s s') {budget : Budget}
    (hfinish : s.finish budget = (t, none)) :
    ∃ t', s'.finish budget = (t', none) ∧
      Framed base s s' ((s.setIndent (s.indent ++ lit "\t")).passes budget.polls)
        ((s'.setIndent (s'.indent ++ lit "\t")).passes budget.polls) t t' := by
  rcases hloop : (s.setIndent (s.indent ++ lit "\t")).loop budget.interruption budget.polls
    with ⟨u, _ | a⟩
  · obtain ⟨u', hloop', hmachine, hstates, out, out', hdelivers, hdelivers', hsame⟩ :=
      loop_framed (h.setIndent _ (s'.indent ++ lit "\t")) hloop
    obtain ⟨v, hv, hout, hdone⟩ := finish_of_loop h.reliable hdelivers
    obtain ⟨t', ht', hout', hdone'⟩ := finish_of_loop h.reliable' hdelivers'
    obtain rfl : v = t := congrArg Prod.fst ((hdone budget hloop).symm.trans hfinish)
    refine ⟨t', hdone' budget hloop', ?_, hstates, out, out', hout, hout', hsame⟩
    rw [ht', hmachine, hv]
  · simp only [finish, exec, hloop] at hfinish
    cases hfinish

theorem load_atop (base : List Value) (s : Session) (src : Bytes) :
    (s.atop base).load src = (s.load src).map (atop base) id :=
  load_mapMachine (f := Machine.atop base)
    ⟨fun _ => rfl, fun _ => rfl, fun _ _ => rfl, fun _ _ _ => rfl⟩ s src

/-- Take a session with reliable devices, in any state and without a limit on values, and a source
whose evaluation succeeds. On top of any other values, the evaluation succeeds as well, with as many
instructions and with these values below all states. It ends with the same definitions, and the
devices get the same unless the builtin `stack` is run. -/
theorem eval_frames {s t : Session} {budget : Budget} {src : Bytes}
    (hlimit : s.machine.stackLimit = 0) (hreliable : s.Reliable)
    (heval : s.eval budget src = (t, none)) (base : List Value) :
    (s.atop base).machine.values = base ++ s.machine.values ∧
    ∃ t', (s.atop base).eval budget src = (t', none) ∧
      t'.machine = t.machine.atop base ∧ t'.machine.values = base ++ t.machine.values ∧
      t'.machine.words = t.machine.words ∧
      ((s.atop base).course budget src).map Session.machine =
        (s.course budget src).map (fun u => u.machine.atop base) ∧
      ((∀ u ∈ s.course budget src, u.machine.invokes .stack = false) →
        t'.output.map Stream.received = t.output.map Stream.received) := by
  refine ⟨Machine.values_atop base s.machine, ?_⟩
  have hrun := run_of_eval heval
  have hload' := load_atop base s src
  obtain ⟨r, program, pc, hloaded⟩ := s.load_machine src
  have hu := load_reliable hreliable src
  rcases hload : s.load src with ⟨u, _ | a⟩
  · rw [hload] at hload' hloaded hu
    have hmirrors : Mirrors base u (u.atop base) := by
      refine ⟨rfl, ?_, hu, hu.setMachine _⟩
      rw [show u.machine = _ from hloaded]
      exact hlimit
    have hfinish : u.finish budget = (t, none) := by rwa [run, hload] at hrun
    obtain ⟨t', hfinish', hmachine, hstates, out, out', hdelivers, hdelivers', hsame⟩ :=
      finish_framed hmirrors hfinish
    have hcourse : s.course budget src =
        (u.setIndent (u.indent ++ lit "\t")).passes budget.polls := by rw [course, hload]
    have hcourse' : (s.atop base).course budget src =
        ((u.atop base).setIndent ((u.atop base).indent ++ lit "\t")).passes budget.polls := by
      rw [course, hload']
      rfl
    refine ⟨t', ?_, hmachine, ?_, ?_, ?_, ?_⟩
    · rw [eval_of_load hload', hfinish']
      rfl
    · rw [hmachine, Machine.values_atop]
    · rw [hmachine]
      rfl
    · rw [hcourse, hcourse', hstates]
    · intro hquiet
      rw [hcourse] at hquiet
      rw [hdelivers.received, hdelivers'.received, hsame hquiet]
      rfl
  · rw [run, hload] at hrun
    cases hrun

/-- A word that calls itself and writes, with a log, on top of a flag and a number. -/
theorem eval_frames_recursion :
    ∃ s t, s = (new (.of []) [.output (some (.buffered {} {})), .trace (some {})]).after
        [({ polls := 9 }, lit "\x7b print 1 - dup 0 > \x7b f \x7d \x7b \x7d if \x7d :f def 2")] ∧
      s.machine.stackLimit = 0 ∧ s.Reliable ∧
      s.eval { polls := 99 } (lit "f 5") = (t, none) ∧ t.machine.values = [.int 0, .int 5] ∧
      (∀ u ∈ s.course { polls := 99 } (lit "f 5"), u.machine.invokes .stack = false) ∧
      (s.atop [.bool true, .int 7]).machine.values = [.bool true, .int 7, .int 2] ∧
      ∃ t', (s.atop [.bool true, .int 7]).eval { polls := 99 } (lit "f 5") = (t', none) ∧
        t'.machine.values = [.bool true, .int 7, .int 0, .int 5] ∧
        t'.machine.words = t.machine.words ∧
        ((s.atop [.bool true, .int 7]).course { polls := 99 } (lit "f 5")).length =
          (s.course { polls := 99 } (lit "f 5")).length ∧
        t'.output.map Stream.received = [lit "21"] := by
  have hnew : (new (.of []) [.output (some (.buffered {} {})), .trace (some {})]).Reliable := by
    refine ⟨?_, ?_, ?_⟩
    · intro stream hstream
      obtain rfl : stream = .buffered {} {} := by simpa [new, apply] using hstream
      exact Behavior.reliable_faithful
    · intro stream hstream
      obtain rfl : stream = .buffered {} {} := by simpa [new, apply] using hstream
      rfl
    · intro t ht call line
      obtain rfl : t = {} := by simpa [new, apply] using ht.symm
      rfl
  generalize hs : (new (.of []) [.output (some (.buffered {} {})), .trace (some {})]).after
    [({ polls := 9 }, lit "\x7b print 1 - dup 0 > \x7b f \x7d \x7b \x7d if \x7d :f def 2")] = s
  have hreliable : s.Reliable := hs ▸ after_reliable hnew _
  have hfacts : (s.machine.stackLimit, s.machine.values,
      (s.course { polls := 99 } (lit "f 5")).all fun u => !u.machine.invokes .stack) =
        (0, [.int 2], true) := by
    rw [← hs]
    cbv
  obtain ⟨hlimit, hbefore, hquiet⟩ := by simpa only [Prod.mk.injEq] using hfacts
  obtain ⟨t, heval, hends⟩ : ∃ t, s.eval { polls := 99 } (lit "f 5") = (t, none) ∧
      (t.machine.values, t.output.map Stream.received) = ([.int 0, .int 5], [lit "21"]) := by
    rw [← hs]
    exact ⟨_, by cbv, by cbv⟩
  obtain ⟨hvalues, hreceived⟩ := by simpa only [Prod.mk.injEq] using hends
  have hquiet' : ∀ u ∈ s.course { polls := 99 } (lit "f 5"),
      u.machine.invokes .stack = false := by simpa using hquiet
  obtain ⟨hstart, t', heval', -, hvalues', hwords, hcourse, hsame⟩ :=
    eval_frames hlimit hreliable heval [.bool true, .int 7]
  refine ⟨s, t, rfl, hlimit, hreliable, heval, hvalues, hquiet', ?_, t', heval', ?_, hwords, ?_, ?_⟩
  · rw [hstart, hbefore]
    rfl
  · rw [hvalues', hvalues]
    rfl
  · simpa using congrArg List.length hcourse
  · rw [hsame hquiet', hreceived]

end Session

end StackLang
