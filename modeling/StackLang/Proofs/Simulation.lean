import StackLang.Proofs.Control

/-!
# Flat code runs trees

The machine, at the code of some items, does what running the items does: it gets to the end of the
code with the same values, definitions and output, or it fails with the same fault. If the run of
the items is cut off for want of fuel, the machine takes at least as many steps.

* `Machine.Runs`: a number of instructions that all succeed.
* `Meets`: the machine does what an outcome says.
* `simulates`: calls and loops meet the outcomes of `invoke` and `iterate`.
* `run_meets`: so does the code of a list of items.
-/

namespace StackLang

/-- The machine takes `n` steps, and has a text written. -/
inductive Machine.Runs : Nat → Machine → Bytes → Machine → Prop
  | refl (m : Machine) : Runs 0 m [] m
  | step {n : Nat} {m m₁ m₂ : Machine} {out out' : Bytes} (h : m.Goes out m₁)
    (hrest : Runs n m₁ out' m₂) : Runs (n + 1) m (out ++ out') m₂

theorem Machine.Runs.trans {n n' : Nat} {m m₁ m₂ : Machine} {out out' : Bytes}
    (h : m.Runs n out m₁) (h' : m₁.Runs n' out' m₂) : m.Runs (n + n') (out ++ out') m₂ := by
  induction h with
  | refl m => simpa using h'
  | step hgoes _ ih =>
    rw [List.append_assoc, Nat.add_right_comm]
    exact .step hgoes (ih h')

theorem Machine.Runs.one {m m' : Machine} (h : m.step = .next m') : m.Runs 1 [] m' :=
  .step (.next h) (.refl m')

end StackLang

namespace StackLang.Tree

variable {r : Registry} {T : Table} {S : Setup} {calls : Stack Int} {loops : List Loop}

/-- The machine stands at `p`, with the data of the state `σ` and these calls and loops pending. -/
structure At (r : Registry) (T : Table) (S : Setup) (calls : Stack Int) (loops : List Loop)
    (p : Nat) (m : Machine) (σ : State) : Prop where
  sound : Sound r T m σ
  setup : m.setup = S
  pc : m.pc = p
  calls : m.calls = calls
  loops : m.loops = loops

/-- The machine `m` does what an outcome says. It gets to `stop`, with these calls and loops
pending; it fails; or it takes at least `bound` steps. The output was `before` to begin with. -/
inductive Meets (r : Registry) (T : Table) (S : Setup) (calls : Stack Int) (loops : List Loop)
    (before : Bytes) (stop bound : Nat) (m : Machine) : Outcome → Prop
  | done {n : Nat} {out : Bytes} {m' : Machine} {σ : State} (hruns : m.Runs n out m')
    (hat : At r T S calls loops stop m' σ) (houtput : σ.output = before ++ out) :
    Meets r T S calls loops before stop bound m (.done σ)
  | failed {n : Nat} {out : Bytes} {m₁ m₂ : Machine} {f : Fault} {σ σ₂ : State}
    (hruns : m.Runs n out m₁) (hfault : m₁.step = .fault f m₂) (hsound : Sound r T m₂ σ₂)
    (hsetup : m₂.setup = S) (hwords : σ₂.words = σ.words) (houtput : σ.output = before ++ out) :
    Meets r T S calls loops before stop bound m (.failed f σ)
  | timeout {n : Nat} {out : Bytes} {m' : Machine} (hruns : m.Runs n out m') (hbound : bound ≤ n) :
    Meets r T S calls loops before stop bound m .timeout

namespace Meets

variable {before : Bytes} {stop bound : Nat} {m : Machine} {o : Outcome}

theorem weaken (h : Meets r T S calls loops before stop bound m o) {bound' : Nat}
    (hle : bound' ≤ bound) : Meets r T S calls loops before stop bound' m o := by
  cases h with
  | done hruns hat houtput => exact .done hruns hat houtput
  | failed hruns hfault hsound hsetup hwords houtput =>
    exact .failed hruns hfault hsound hsetup hwords houtput
  | timeout hruns hbound => exact .timeout hruns (Nat.le_trans hle hbound)

/-- Steps in front count. -/
theorem after {n : Nat} {out : Bytes} {m₁ : Machine} (hruns : m.Runs n out m₁)
    (h : Meets r T S calls loops (before ++ out) stop bound m₁ o) :
    Meets r T S calls loops before stop (n + bound) m o := by
  cases h with
  | done hruns' hat houtput =>
    exact .done (hruns.trans hruns') hat (by rw [houtput, List.append_assoc])
  | failed hruns' hfault hsound hsetup hwords houtput =>
    exact .failed (hruns.trans hruns') hfault hsound hsetup hwords
      (by rw [houtput, List.append_assoc])
  | timeout hruns' hbound => exact .timeout (hruns.trans hruns') (Nat.add_le_add_left hbound n)

/-- One instruction in front that writes nothing. -/
theorem next {m₁ : Machine} (hstep : m.step = .next m₁)
    (h : Meets r T S calls loops before stop bound m₁ o) :
    Meets r T S calls loops before stop (1 + bound) m o :=
  after (.one hstep) (by rwa [List.append_nil])

/-- What is done when one part is done goes on with the next. -/
theorem andThen {calls' : Stack Int} {loops' : List Loop} {mid : Nat} {rest : State → Outcome}
    (h : Meets r T S calls loops before mid bound m o)
    (hnext : ∀ m' σ, At r T S calls loops mid m' σ →
      Meets r T S calls' loops' σ.output stop bound m' (rest σ)) :
    Meets r T S calls' loops' before stop bound m (o.andThen rest) := by
  cases h with
  | done hruns hat houtput =>
    have hrest := hnext _ _ hat
    rw [houtput] at hrest
    -- If the second part is cut off, it takes enough steps by itself.
    exact (after hruns hrest).weaken (Nat.le_add_left _ _)
  | failed hruns hfault hsound hsetup hwords houtput =>
    exact .failed hruns hfault hsound hsetup hwords houtput
  | timeout hruns hbound => exact .timeout hruns hbound

end Meets

namespace At

variable {p : Nat} {m : Machine} {σ : State}

theorem step_eq (h : At r T S calls loops p m σ) {op : Op} (hop : S.ops[p]? = some op) :
    m.step = op.run m := by
  refine Machine.step_of_fetch h.pc ?_
  rw [show m.program.ops = S.ops from congrArg Setup.ops h.setup]
  exact hop

/-- The machine is at once where it should be. -/
theorem done (h : At r T S calls loops p m σ) (bound : Nat) :
    Meets r T S calls loops σ.output p bound m (.done σ) :=
  .done (.refl m) h (List.append_nil _).symm

/-- The next instruction fails, and leaves this machine. -/
theorem failed (h : At r T S calls loops p m σ) {m₀ : Machine} {f : Fault}
    (hfault : m₀.step = .fault f m) (stop bound : Nat) (σ' : State)
    (hwords : σ'.words = σ.words) (houtput : σ'.output = σ.output) {calls' : Stack Int}
    {loops' : List Loop} :
    Meets r T S calls' loops' σ.output stop bound m₀ (.failed f σ') :=
  .failed (.refl m₀) hfault h.sound h.setup hwords.symm (by rw [houtput, List.append_nil])

/-- The machine goes on, perhaps with other data. -/
theorem goes (h : At r T S calls loops p m σ) {m' : Machine} {σ' : State} {p' : Nat}
    (hkeeps : Keeps m m') (hrep : Represents T m' σ') (hpc : m'.pc = p') :
    At r T S calls loops p' m' σ' :=
  ⟨h.sound.keeps hkeeps hrep, hkeeps.setup.trans h.setup, hpc, hkeeps.calls.trans h.calls,
    hkeeps.loops.trans h.loops⟩

/-- An operator has its result. Without a limit, the stack does not overflow. -/
theorem follows (h : At r T S calls loops p m σ) (hlimit : S.stackLimit = 0) {effect : Effect}
    {result : Except Fault State} (hstep : m.step = effect) (hfollows : Follows T m σ effect result)
    (bound : Nat) :
    Meets r T S calls loops σ.output (p + 1) bound m (.ofExcept σ result) := by
  cases hfollows with
  | @next m' σ' hkeeps hpc hrep houtput =>
    have hpc' : m'.pc = (p + 1 : Nat) := by
      rw [hpc, h.pc]
      rfl
    refine .done (.one hstep) (h.goes hkeeps hrep hpc') ?_
    rw [houtput, List.append_nil]
  | fault hf hkeeps hpc hrep =>
    exact (h.goes hkeeps hrep (hpc.trans h.pc)).failed hstep _ _ σ rfl rfl
  | overflow hunlimited =>
    have hzero : m.stackLimit = 0 := (congrArg Setup.stackLimit h.setup).trans hlimit
    exact absurd hzero hunlimited

/-- Values may be taken from the stack. -/
theorem set (h : At r T S calls loops p m σ) {n : Nat} {stack : List Datum}
    (hdrop : Represents T (m.drop n) { σ with stack := stack }) :
    At r T S calls loops p (m.drop n) { σ with stack := stack } :=
  h.goes (keeps_set m _ m.words m.pc) hdrop h.pc

/-- The instruction at `p` goes on elsewhere, with other loops pending. -/
theorem move (h : At r T S calls loops p m σ) (p' : Nat) (calls' : Stack Int)
    (loops' : List Loop) :
    At r T S calls' loops' p' { m with pc := p', calls := calls', loops := loops' } σ :=
  ⟨h.sound.move _ _ _, h.setup, rfl, rfl, rfl⟩

/-- The machine goes on behind an instruction that wrote a text. -/
theorem emit (h : At r T S calls loops p m σ) (text : Bytes) :
    At r T S calls loops (p + 1) m.advance (σ.write text) := by
  have hrep : Represents T m (σ.write text) := h.sound.represents.congr rfl rfl
  refine h.goes (keeps_set m m.stack m.words (m.pc + 1)) (hrep.move _ _ _) ?_
  show m.pc + 1 = _
  rw [h.pc]
  rfl

end At

/-! ## Calls and loops -/

/-- An instruction that runs code meets the outcome of running it. -/
def InvokeMeets (r : Registry) (T : Table) (S : Setup) (fuel : Nat) : Prop :=
  ∀ ⦃calls : Stack Int⦄ ⦃loops : List Loop⦄ ⦃p : Nat⦄ ⦃m₀ m : Machine⦄ ⦃σ : State⦄ ⦃c : Code⦄
    ⦃k : Routine⦄, Refers T c k → At r T S calls loops p m σ → m₀.step = m.dispatch c →
    p < S.ops.size →
    Meets r T S calls loops σ.output (p + 1) fuel m₀ (invoke (label T) fuel k σ)

/-- The code of a loop that was entered meets the outcome of the iteration. -/
def IterateMeets (r : Registry) (T : Table) (S : Setup) (fuel : Nat) : Prop :=
  ∀ ⦃calls : Stack Int⦄ ⦃loops : List Loop⦄ ⦃p : Nat⦄ ⦃m : Machine⦄ ⦃σ : State⦄ ⦃cond body : Code⦄
    ⦃kcond kbody : Routine⦄, Refers T cond kcond → Refers T body kbody →
    Holds S.ops p (Draft.loopCode p) → At r T S calls (⟨cond, body⟩ :: loops) (p + 1) m σ →
    Meets r T S calls loops σ.output (p + 5) (fuel - 1) m (iterate (label T) fuel kcond kbody σ)

section

variable {p : Nat} {m : Machine} {σ : State} {fuel : Nat}

/-- The `ret` of a block goes back behind the instruction that called it. -/
theorem Meets.ret {before : Bytes} {stop bound : Nat} {o : Outcome}
    (h : Meets r T S (calls.push p) loops before stop bound m o)
    (hret : S.ops[stop]? = some .ret) (hp : p < S.ops.size) :
    Meets r T S calls loops before (p + 1) bound m o := by
  cases h with
  | @done n out m' σ hruns hat houtput =>
    have hops : m'.program.ops = S.ops := congrArg Setup.ops hat.setup
    have hbehind : m'.behind p = (p + 1 : Nat) := behind_of_lt (by rwa [hops])
    have hstep : m'.step = .next { m' with calls := calls, pc := (p + 1 : Nat) } := by
      have hdrop : (calls.push p).drop 1 = calls := Stack.eq_of_items rfl
      rw [hat.step_eq hret]
      simp only [Op.run, hat.calls, Stack.items_push, hdrop, hbehind]
    refine .done (hruns.trans (.one hstep)) ?_ (by rw [houtput, List.append_nil])
    exact ⟨hat.sound.move _ _ m'.loops, hat.setup, rfl, rfl, hat.loops⟩
  | failed hruns hfault hsound hsetup hwords houtput =>
    exact .failed hruns hfault hsound hsetup hwords houtput
  | timeout hruns hbound => exact .timeout hruns hbound

theorem exec_meets (hinvoke : InvokeMeets r T S fuel) (h : At r T S calls loops p m σ)
    (hop : S.ops[p]? = some .exec) :
    Meets r T S calls loops σ.output (p + 1) fuel m
      (Atom.exec.run (invoke (label T) fuel) (iterate (label T) fuel) σ) := by
  have hstep := h.step_eq hop
  have hp := (Array.getElem?_eq_some_iff.1 hop).1
  rcases run_exec h.sound.represents with ⟨c, k, stack, hs, hc, hdrop, hrun⟩ | ⟨f, -, hrun, hfails⟩
  · simp only [Atom.run, hs]
    exact hinvoke hc (h.set hdrop) (hstep.trans hrun) hp
  · rw [hfails]
    exact h.failed (hstep.trans hrun) _ _ σ rfl rfl

/-- To choose is to select, and then to execute. If the value selected is not code, this fails with
another stack. -/
theorem select_exec (invoke : Routine → State → Outcome)
    (iterate : Routine → Routine → State → Outcome) (σ : State) :
    (Outcome.ofExcept σ σ.select).andThen (fun σ => Atom.exec.run invoke iterate σ) =
        Atom.choose.run invoke iterate σ ∨
      ∃ f stack,
        (Outcome.ofExcept σ σ.select).andThen (fun σ => Atom.exec.run invoke iterate σ) =
          .failed f { σ with stack := stack } ∧
        Atom.choose.run invoke iterate σ = .failed f σ := by
  simp only [State.select, Atom.run]
  rcases σ.stack with _ | ⟨no, _ | ⟨yes, _ | ⟨flag, rest⟩⟩⟩
  case cons.cons.cons =>
    simp only [Outcome.ofExcept, Outcome.andThen]
    rcases (if flag.truth then yes else no) with c | k
    · exact Or.inr ⟨_, _, rfl, rfl⟩
    · exact Or.inl rfl
  all_goals exact Or.inl rfl

theorem choose_meets (hlimit : S.stackLimit = 0) (hinvoke : InvokeMeets r T S fuel)
    (h : At r T S calls loops p m σ) (hops : Holds S.ops p [.select, .exec]) :
    Meets r T S calls loops σ.output (p + 2) fuel m
      (Atom.choose.run (invoke (label T) fuel) (iterate (label T) fuel) σ) := by
  have hselect := h.follows hlimit (h.step_eq hops.head) (follows_select h.sound.represents) fuel
  have hmeets := hselect.andThen fun _ _ hat => exec_meets hinvoke hat hops.tail.head
  rcases select_exec (invoke (label T) fuel) (iterate (label T) fuel) σ with
    heq | ⟨f, stack, heq, heq'⟩
  · rwa [heq] at hmeets
  · rw [heq] at hmeets
    rw [heq']
    cases hmeets with
    | failed hruns hfault hsound hsetup hwords houtput =>
      exact .failed hruns hfault hsound hsetup hwords houtput

theorem loop_meets (hiterate : IterateMeets r T S fuel) (h : At r T S calls loops p m σ)
    (hops : Holds S.ops p (Draft.loopCode p)) :
    Meets r T S calls loops σ.output (p + 5) fuel m
      (Atom.loop.run (invoke (label T) fuel) (iterate (label T) fuel) σ) := by
  have hstep := h.step_eq hops.head
  rcases run_loopEnter h.sound.represents with
    ⟨cond, body, kcond, kbody, stack, hs, hcond, hbody, hdrop, hrun⟩ | ⟨f, -, hrun, hfails⟩
  · simp only [Atom.run, hs]
    have hat := (h.set hdrop).move (p + 1) calls (⟨cond, body⟩ :: loops)
    have hnext : m.step = .next { m.drop 2 with
        pc := (p + 1 : Nat), calls := calls, loops := ⟨cond, body⟩ :: loops } := by
      rw [hstep, hrun, h.pc, h.loops, ← h.calls]
      rfl
    -- The step into the loop makes up for the one that the bound of `iterate` lacks.
    refine (Meets.next hnext (hiterate hcond hbody hops hat)).weaken ?_
    omega
  · rw [hfails]
    exact h.failed (hstep.trans hrun) _ _ σ rfl rfl

theorem call_meets (hinvoke : InvokeMeets r T S fuel) (h : At r T S calls loops p m σ)
    {handle : Handle} {word : Bytes} (hname : r.name? handle = some (.ofWord word))
    (hop : S.ops[p]? = some (.call handle)) :
    Meets r T S calls loops σ.output (p + 1) fuel m
      ((Atom.call word).run (invoke (label T) fuel) (iterate (label T) fuel) σ) := by
  have hstep := h.step_eq hop
  have hp := (Array.getElem?_eq_some_iff.1 hop).1
  rcases run_call h.sound.represents (h.sound.kept hname) with
    ⟨c, k, hword, hc, hrun⟩ | ⟨hword, hrun⟩
  · simp only [Atom.run, hword]
    exact hinvoke hc h (hstep.trans hrun) hp
  · simp only [Atom.run, hword]
    exact h.failed (hstep.trans hrun) _ _ σ rfl rfl

/-- A value is pushed. -/
theorem push_meets (hlimit : S.stackLimit = 0) (h : At r T S calls loops p m σ) {v : Value}
    {x : Datum} (hv : Denotes r T v x) (hop : S.ops[p]? = some (.push v)) (bound : Nat) :
    Meets r T S calls loops σ.output (p + 1) bound m (.done (σ.push x)) := by
  have hv' := hv.mono h.sound.kept (List.prefix_refl T)
  exact h.follows hlimit (h.step_eq hop) (h.sound.represents.push (.refl m) rfl hv') bound

/-- The code of an item does what the item does. -/
theorem item_meets (hlimit : S.stackLimit = 0) (hinvoke : InvokeMeets r T S fuel)
    (hiterate : IterateMeets r T S fuel) {item : Item} {code : List Op}
    (hitem : Encodes r T p item code) (hops : Holds S.ops p code)
    (h : At r T S calls loops p m σ) :
    Meets r T S calls loops σ.output (p + code.length) fuel m
      (item.run (invoke (label T) fuel) (iterate (label T) fuel) σ) := by
  cases hitem with
  | constant hc => exact push_meets hlimit h (.constant hc) hops.head fuel
  | primitive q =>
    exact h.follows hlimit (h.step_eq hops.head)
      (q.follows h.sound.represents h.sound.distinct h.sound.linked.ordered) fuel
  | exec => exact exec_meets hinvoke h hops.head
  | choose => exact choose_meets hlimit hinvoke h hops
  | loop => exact loop_meets hiterate h hops
  | call hname => exact call_meets hinvoke h hname hops.head
  | block hb => exact push_meets hlimit h (.code (.block hb)) hops.head fuel

/-- The code of a list of items does what the items do. -/
theorem runItems_meets (hlimit : S.stackLimit = 0) (hinvoke : InvokeMeets r T S fuel)
    (hiterate : IterateMeets r T S fuel) {items : List Item} {code : List Op}
    (hitems : Assembled r T p items code) (hops : Holds S.ops p code)
    (h : At r T S calls loops p m σ) :
    Meets r T S calls loops σ.output (p + code.length) fuel m
      (runItems (invoke (label T) fuel) (iterate (label T) fuel) σ items) := by
  induction hitems generalizing m σ with
  | nil => exact h.done fuel
  | cons hitem _ ih =>
    rw [List.length_append, ← Nat.add_assoc]
    exact (item_meets hlimit hinvoke hiterate hitem hops.left h).andThen
      fun _ _ hat => ih hops.right hat

/-- A block is entered and left; a builtin writes its text at once. -/
theorem invokeMeets_succ (hstack : S.stackLimit = 0) (hcalls : S.callLimit = 0)
    (hinvoke : InvokeMeets r T S fuel) (hiterate : IterateMeets r T S fuel) :
    InvokeMeets r T S (fuel + 1) := by
  intro calls loops p m₀ m σ c k hc h hstep hp
  cases hc with
  | @block number start body hb =>
    obtain ⟨code, hcode, hops⟩ := h.sound.linked.placed _ (List.mem_of_getElem? hb)
    rw [show m.program.ops = S.ops from congrArg Setup.ops h.setup] at hops
    have hnext : m₀.step = .next { m with
        pc := (start : Int), calls := calls.push p, loops := loops } := by
      have hunlimited : m.callLimit = 0 := (congrArg Setup.callLimit h.setup).trans hcalls
      rw [hstep, Machine.dispatch, h.calls, h.pc, ← h.loops]
      simp [Stack.full, hunlimited]
    have hbody := runItems_meets hstack hinvoke hiterate hcode hops.left
      (h.move start (calls.push p) loops)
    rw [invoke, Nat.add_comm fuel]
    exact .next hnext (hbody.ret hops.right.head hp)
  | @builtin i b hb =>
    rw [invoke]
    rcases dispatch_builtin h.sound.represents hb with ⟨text, hrun, hdone⟩ | ⟨hrun, hfails⟩
    · rw [hdone]
      exact .done (.step (.emit (hstep.trans hrun)) (.refl _)) (h.emit text)
        (by rw [List.append_nil, State.write])
    · rw [hfails]
      exact h.failed (hstep.trans hrun) _ _ σ rfl rfl

/-- The body of a loop runs, and the loop starts again. -/
theorem again_meets (hinvoke : InvokeMeets r T S fuel) (hiterate : IterateMeets r T S fuel)
    {cond body : Code} {kcond kbody : Routine} (hcond : Refers T cond kcond)
    (hbody : Refers T body kbody) (hops : Holds S.ops p (Draft.loopCode p))
    (h : At r T S calls (⟨cond, body⟩ :: loops) (p + 3) m σ) :
    Meets r T S calls loops σ.output (p + 5) fuel m
      ((invoke (label T) fuel kbody σ).andThen (iterate (label T) fuel kcond kbody)) := by
  have hops' := hops.tail.tail.tail
  have hstep : m.step = m.dispatch body := by
    rw [h.step_eq hops'.head, Op.run, Machine.withLoop, h.loops]
  have hp := (Array.getElem?_eq_some_iff.1 hops'.head).1
  refine (hinvoke hbody h hstep hp).andThen fun m' σ' hat => ?_
  have hjump : m'.step = .next { m' with
      pc := (p + 1 : Nat), calls := calls, loops := ⟨cond, body⟩ :: loops } := by
    rw [hat.step_eq hops'.tail.head, ← hat.calls, ← hat.loops]
    rfl
  have hmeets := hiterate hcond hbody hops (hat.move (p + 1) calls (⟨cond, body⟩ :: loops))
  exact (Meets.next hjump hmeets).weaken (by omega)

/-- One pass through a loop, behind its condition. -/
theorem loopExit_meets (hinvoke : InvokeMeets r T S fuel) (hiterate : IterateMeets r T S fuel)
    {cond body : Code} {kcond kbody : Routine} (hcond : Refers T cond kcond)
    (hbody : Refers T body kbody) (hops : Holds S.ops p (Draft.loopCode p))
    (h : At r T S calls (⟨cond, body⟩ :: loops) (p + 2) m σ) :
    Meets r T S calls loops σ.output (p + 5) fuel m
      (match σ.stack with
      | [] => .failed (σ.underflow "while" 1) σ
      | flag :: rest =>
        if flag.truth then
          (invoke (label T) fuel kbody { σ with stack := rest }).andThen
            (iterate (label T) fuel kcond kbody)
        else .done { σ with stack := rest }) := by
  have hexit := hops.tail.tail
  have hstep := h.step_eq hexit.head
  rcases run_loopExit h.sound.represents h.loops (p + 5) with
    ⟨hs, hrun⟩ | ⟨flag, rest, hs, hrun, hdrop⟩
  · rw [hs]
    exact h.failed (hstep.trans hrun) _ _ σ rfl rfl
  rw [hs]
  have hat := h.set hdrop
  by_cases hflag : flag.truth
  · simp only [hflag, if_true] at hrun ⊢
    have hnext : m.step = .next { m.drop 1 with
        pc := (p + 3 : Nat), calls := calls, loops := ⟨cond, body⟩ :: loops } := by
      rw [hstep, hrun, h.pc, ← h.calls, ← h.loops]
      rfl
    have hpass := again_meets hinvoke hiterate hcond hbody hops
      (hat.move (p + 3) calls (⟨cond, body⟩ :: loops))
    exact (Meets.next hnext hpass).weaken (by omega)
  · simp only [hflag] at hrun ⊢
    have hnext : m.step = .next { m.drop 1 with
        pc := (p + 5 : Nat), calls := calls, loops := loops } := by
      rw [hstep, hrun, ← h.calls]
      rfl
    exact (Meets.next hnext ((hat.move (p + 5) calls loops).done fuel)).weaken (by omega)

/-- The condition of a loop runs before every pass. -/
theorem iterateMeets_succ (hinvoke : InvokeMeets r T S fuel) (hiterate : IterateMeets r T S fuel) :
    IterateMeets r T S (fuel + 1) := by
  intro calls loops p m σ cond body kcond kbody hcond hbody hops h
  have hstep : m.step = m.dispatch cond := by
    rw [h.step_eq hops.tail.head, Op.run, Machine.withLoop, h.loops]
  have hp := (Array.getElem?_eq_some_iff.1 hops.tail.head).1
  rw [iterate]
  exact (hinvoke hcond h hstep hp).andThen
    fun _ _ hat => loopExit_meets hinvoke hiterate hcond hbody hops hat

/-- Without limits, the machine does what `invoke` and `iterate` do, whatever the fuel. -/
theorem simulates (hstack : S.stackLimit = 0) (hcalls : S.callLimit = 0) (fuel : Nat) :
    InvokeMeets r T S fuel ∧ IterateMeets r T S fuel := by
  -- Blocks run loops and loops run blocks, always with less fuel: both go by one induction.
  induction fuel with
  | zero =>
    constructor
    · intro calls loops p m₀ m σ c k _ _ _ _
      rw [invoke]
      exact .timeout (.refl m₀) (Nat.le_refl 0)
    · intro calls loops p m σ cond body kcond kbody _ _ _ _
      rw [iterate]
      exact .timeout (.refl m) (Nat.zero_le 0)
  | succ fuel ih =>
    exact ⟨invokeMeets_succ hstack hcalls ih.1 ih.2, iterateMeets_succ ih.1 ih.2⟩

/-- The code of a list of items does what running them does. -/
theorem run_meets (hstack : S.stackLimit = 0) (hcalls : S.callLimit = 0) {items : List Item}
    {code : List Op} (hitems : Assembled r T p items code) (hops : Holds S.ops p code)
    (h : At r T S calls loops p m σ) (fuel : Nat) :
    Meets r T S calls loops σ.output (p + code.length) fuel m (run (label T) fuel σ items) :=
  have hsimulates := simulates hstack hcalls fuel
  runItems_meets hstack hsimulates.1 hsimulates.2 hitems hops h

end

end StackLang.Tree
