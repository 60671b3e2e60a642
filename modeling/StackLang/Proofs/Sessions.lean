import StackLang.Proofs.Loading

/-!
# Sessions over time

The states that a session passes through, from the time it is set up. Between two evaluations it is
at rest, and while it runs a source its machine keeps the control invariant, whatever limits,
budgets, devices and logs it has.

* `Session.Running`: the sessions in the course of a run (`Running.governed`).
* `Session.after`: the session after several evaluations (`after_rests`).
* `Tree.library`: the blocks that the sources of a session had.
-/

namespace StackLang.Session

open StackLang.Tree

/-! ## Instructions -/

/-- What one instruction does to a session, if its machine keeps the invariant. -/
structure Steps (r : Registry) (T : Table) (S : Setup) (s : Session)
    (ended : Session × Option Abort) : Prop where
  alike : s.Alike ended.1
  governed : Governed r T S S.ops.size [] [] ended.1.machine
  proper : ∀ a, ended.2 = some a → a.Proper s.Calm
  goes : ended.2 = none → ∃ out, s.machine.Goes out ended.1.machine

section

variable {r : Registry} {T : Table} {S : Setup} {s : Session}

theorem perform_steps
    (hstep : s.machine.step.Leads (Governed r T S S.ops.size [] [])) :
    Steps r T S s (s.perform s.machine.step) := by
  generalize heffect : s.machine.step = effect at hstep
  cases effect with
  | next m => exact ⟨⟨rfl, rfl⟩, hstep, by simp [perform], fun _ => ⟨_, .next heffect⟩⟩
  | emit text m =>
    have hwrite := write_serves { s with machine := m } text
    simp only [perform]
    generalize { s with machine := m }.write text = written at hwrite ⊢
    obtain ⟨t, abort⟩ := written
    have hmachine : t.machine = m := hwrite.machine
    cases abort with
    | none =>
      refine ⟨⟨hwrite.alike.behaviors, hwrite.alike.refusals⟩, ?_, by simp, ?_⟩
      · simp only [hmachine]
        exact hstep.2
      · intro _
        simp only [hmachine]
        exact ⟨_, .emit heffect⟩
    | some a =>
      refine ⟨⟨hwrite.alike.behaviors, hwrite.alike.refusals⟩, ?_, ?_, by simp⟩
      · simp only [hmachine]
        exact hstep.1
      · intro a' ha'
        exact (hwrite.proper a' ha').imp fun hcalm => ⟨hcalm.output, hcalm.trace⟩
  | fault f m =>
    obtain ⟨t, hhalt, hmachine, halike, -⟩ := { s with machine := m }.halt_eq (.fault f)
    simp only [perform, hhalt]
    refine ⟨⟨halike.behaviors, halike.refusals⟩, ?_, ?_, by simp⟩
    · simp only [hmachine]
      exact hstep.2
    · rintro a ⟨⟩
      exact ⟨_, rfl, fun _ => Error.expected_fault hstep.1⟩
  | stuck => exact hstep.elim

theorem step_steps (h : Governed r T S S.ops.size [] [] s.machine)
    (hrunning : s.machine.running = true) : Steps r T S s s.step := by
  have hpc : s.machine.pc ≠ S.ops.size := by
    have hlt : s.machine.pc < s.machine.program.ops.size := by
      simpa [Machine.running] using hrunning
    rw [h.program] at hlt
    omega
  have hleads : s.machine.step.Leads (Governed r T S S.ops.size [] []) := by
    have hproceeds := h.step (Or.inl hpc)
    generalize s.machine.step = effect at hproceeds ⊢
    cases effect with
    | next m => exact hproceeds.governed
    | emit text m => exact ⟨hproceeds.1.governed, hproceeds.2.governed⟩
    | fault f m => exact ⟨hproceeds.1, hproceeds.2.governed⟩
    | stuck => exact hproceeds
  unfold step
  cases hfetch : s.machine.fetch? with
  | none =>
    rw [Machine.step, hfetch] at hleads
    exact hleads.elim
  | some op =>
    have hrun : s.machine.step = op.run s.machine := by rw [Machine.step, hfetch]
    have htrace := s.traceOp_serves op
    simp only
    generalize s.traceOp op = traced at htrace ⊢
    obtain ⟨t, abort⟩ := traced
    have hmachine : t.machine = s.machine := htrace.machine
    cases abort with
    | none =>
      rw [← hmachine] at hleads hrun
      have hperform := perform_steps hleads
      rw [hrun] at hperform
      refine ⟨htrace.alike.trans hperform.alike, hperform.governed, ?_, ?_⟩
      · intro a ha
        exact (hperform.proper a ha).imp htrace.alike.calm
      · rw [← hmachine]
        exact hperform.goes
    | some a =>
      refine ⟨htrace.alike, ?_, htrace.proper, by simp⟩
      simp only [hmachine]
      exact h

/-! ## Runs -/

/-- How a run ends. -/
structure Ends (r : Registry) (T : Table) (S : Setup) (s : Session)
    (ended : Session × Option Abort) : Prop where
  alike : s.Alike ended.1
  governed : Governed r T S S.ops.size [] [] ended.1.machine
  proper : ∀ a, ended.2 = some a → a.Proper s.Calm
  stopped : ended.2 = none → ended.1.machine.running = false

theorem Steps.ends {t : Session} {ended : Session × Option Abort} (h : Steps r T S s (t, none))
    (hended : Ends r T S t ended) : Ends r T S s ended where
  alike := h.alike.trans hended.alike
  governed := hended.governed
  proper := by
    intro a ha
    exact (hended.proper a ha).imp h.alike.calm
  stopped := hended.stopped

theorem interrupted_ends (h : Governed r T S S.ops.size [] [] s.machine) (i : Interruption) :
    Ends r T S s (s.halt (some (.interrupted i))) := by
  obtain ⟨t, hhalt, hmachine, halike, -⟩ := s.halt_eq (.interrupted i)
  rw [hhalt]
  refine ⟨halike, ?_, ?_, by simp⟩
  · simp only [hmachine]
    exact h
  · rintro a ⟨⟩
    exact ⟨_, rfl, fun _ => Error.expected_interrupted i⟩

/-- A run keeps the invariant, and is over at the end of the program only. -/
theorem loop_ends (h : Governed r T S S.ops.size [] [] s.machine) (i : Interruption)
    (polls : Nat) : Ends r T S s (s.loop i polls) := by
  fun_induction loop i polls s with
  | case1 s hrunning t hstep =>
    have hsteps := step_steps h hrunning
    rw [hstep] at hsteps
    exact hsteps.ends (interrupted_ends hsteps.governed i)
  | case2 s hrunning t hstep polls ih =>
    have hsteps := step_steps h hrunning
    rw [hstep] at hsteps
    exact hsteps.ends (ih hsteps.governed)
  | case3 polls s hrunning hne =>
    have hsteps := step_steps h hrunning
    refine ⟨hsteps.alike, hsteps.governed, hsteps.proper, ?_⟩
    intro hnone
    exact (hne _ (Prod.ext rfl hnone)).elim
  | case4 polls s hrunning =>
    exact ⟨.refl s, h, by simp, fun _ => by simpa using hrunning⟩

theorem exec_ends (h : Governed r T S S.ops.size [] [] s.machine) (budget : Budget) :
    Ends r T S s (s.exec budget) := by
  have hbefore := s.setIndent_alike (s.indent ++ lit "\t")
  have hloop := loop_ends (s := s.setIndent (s.indent ++ lit "\t")) h budget.interruption
    budget.polls
  have hafter := (((s.setIndent (s.indent ++ lit "\t")).loop budget.interruption
    budget.polls).1).setIndent_alike s.indent
  exact ⟨(hbefore.trans hloop.alike).trans hafter, hloop.governed,
    fun a ha => (hloop.proper a ha).imp hbefore.calm, hloop.stopped⟩

theorem finish_ends (h : Governed r T S S.ops.size [] [] s.machine) (budget : Budget) :
    Ends r T S s (s.finish budget) := by
  have hexec := exec_ends h budget
  unfold finish
  generalize s.exec budget = ended at hexec ⊢
  obtain ⟨t, _ | a⟩ := ended
  · have hflush := t.flush_serves
    refine ⟨hexec.alike.trans hflush.alike, ?_, ?_, ?_⟩
    · rw [hflush.machine]
      exact hexec.governed
    · intro a ha
      exact (hflush.proper a ha).imp hexec.alike.calm
    · intro _
      rw [hflush.machine]
      exact hexec.stopped rfl
  · exact hexec

end

/-- A session in the course of running a source: the source was loaded, and some instructions were
carried out since. -/
inductive Running (s : Session) (src : Bytes) : Session → Prop
  | load {t : Session} (h : s.load src = (t, none)) :
    s.Running src (t.setIndent (t.indent ++ lit "\t"))
  | step {t t' : Session} (h : s.Running src t) (hrunning : t.machine.running = true)
    (hstep : t.step = (t', none)) : s.Running src t'

theorem Running.governed {T : Table} {s t : Session} {σ : State} {src : Bytes}
    (hrun : s.Running src t) (h : Resting T s.machine σ) :
    ∃ r tree new S, ofSource? T.length src = some tree ∧
      new.map Placement.body = (blocks tree).map Prod.snd ∧
      Governed r (T ++ new) S S.ops.size [] [] t.machine ∧ s.Alike t := by
  induction hrun with
  | @load t hload =>
    rcases load_cases h src with
      ⟨t', a, hload', -⟩ | ⟨t', tree, new, hload', htree, hloaded, halike, -⟩
    · rw [hload] at hload'
      cases hload'
    · rw [hload] at hload'
      cases hload'
      exact ⟨_, tree, new, _, htree, hloaded.bodies, hloaded.governed,
        halike.trans (t.setIndent_alike _)⟩
  | step _ hrunning hstep ih =>
    obtain ⟨r, tree, new, S, htree, hbodies, hgoverned, halike⟩ := ih
    have hsteps := step_steps hgoverned hrunning
    rw [hstep] at hsteps
    exact ⟨r, tree, new, S, htree, hbodies, hsteps.governed, halike.trans hsteps.alike⟩

end StackLang.Session

namespace StackLang.Tree

/-- The blocks of a session after a source, if it is one that compiles. -/
def extend (bodies : List (List Item)) (src : Bytes) : List (List Item) :=
  match ofSource? bodies.length src with
  | some tree => bodies ++ (blocks tree).map Prod.snd
  | none => bodies

/-- The blocks of several sources, in the order of their closing braces. -/
def library (sources : List Bytes) : List (List Item) := sources.foldl extend []

theorem library_concat (sources : List Bytes) (src : Bytes) :
    library (sources ++ [src]) = extend (library sources) src :=
  List.foldl_concat extend [] src sources

theorem extend_of_some {T new : Table} {src : Bytes} {tree : List Item}
    (htree : ofSource? T.length src = some tree)
    (hbodies : new.map Placement.body = (blocks tree).map Prod.snd) :
    (T ++ new).map Placement.body = extend (T.map Placement.body) src := by
  rw [extend, List.length_map, htree, List.map_append, hbodies]

theorem extend_of_none {T : Table} {src : Bytes} (hnone : ofSource? T.length src = none) :
    T.map Placement.body = extend (T.map Placement.body) src := by
  rw [extend, List.length_map, hnone]

end StackLang.Tree

namespace StackLang.Session

open StackLang.Tree

/-! ## Evaluations -/

/-- How an evaluation ends. Its session is at rest again, with the blocks of the source. -/
structure Evaluated (T : Table) (s : Session) (src : Bytes) (ended : Session × Option Error) :
    Prop where
  resting : ∃ T' σ, Resting T' ended.1.machine σ ∧
    (s.Calm → T'.map Placement.body = extend (T.map Placement.body) src)
  alike : s.Alike ended.1
  stackLimit : ended.1.machine.stackLimit = s.machine.stackLimit
  callLimit : ended.1.machine.callLimit = s.machine.callLimit
  expected : s.Calm → ∀ e, ended.2 = some e → e.Expected

theorem conclude_some {s : Session} {a : Abort} {e : Error}
    (h : a.recover (lit "VM") = some e) : conclude (s, some a) = (s.reset, some e) := by
  simp [conclude, guarded, h]

theorem eval_evaluated {T : Table} {s : Session} {σ : State} (h : Resting T s.machine σ)
    (budget : Budget) (src : Bytes) : Evaluated T s src (s.eval budget src) := by
  unfold eval run
  rcases load_cases h src with
    ⟨t, a, hload, hrest, hsetup, halike, ⟨e, he, hexpected⟩, hnone⟩ |
    ⟨t, tree, new, hload, htree, hloaded, halike, -⟩
  · simp only [hload]
    rw [conclude_some he]
    refine ⟨⟨T, _, hrest.sound.reset, fun hcalm => extend_of_none (hnone hcalm)⟩, ?_, ?_, ?_, ?_⟩
    · exact ⟨halike.behaviors, halike.refusals⟩
    · exact congrArg Setup.stackLimit hsetup
    · exact congrArg Setup.callLimit hsetup
    · rintro hcalm e' ⟨⟩
      exact hexpected hcalm
  · simp only [hload]
    have hends := finish_ends hloaded.governed budget
    have hbodies := extend_of_some htree hloaded.bodies
    generalize t.finish budget = ended at hends ⊢
    obtain ⟨u, abort⟩ := ended
    have hlimits : u.machine.setup = t.machine.setup := hends.governed.setup
    have hgoverned := hends.governed
    obtain ⟨σ', stop, p, looping, own, rest, hactive⟩ := hgoverned
    cases abort with
    | none =>
      obtain ⟨hpc, hcalls, hloops⟩ := hends.governed.quiet (hends.stopped rfl)
      rw [← hlimits] at hpc
      refine ⟨⟨T ++ new, σ', ⟨hactive.sound.refresh, hpc, hcalls, hloops⟩, fun _ => hbodies⟩,
        halike.trans hends.alike, ?_, ?_, by simp [conclude, guarded]⟩
      · exact (congrArg Setup.stackLimit hlimits).trans hloaded.stackLimit
      · exact (congrArg Setup.callLimit hlimits).trans hloaded.callLimit
    | some a =>
      obtain ⟨e, he, hexpected⟩ := hends.proper a rfl
      rw [conclude_some he]
      have hsame := halike.trans hends.alike
      refine ⟨⟨T ++ new, _, hactive.sound.reset, fun _ => hbodies⟩,
        ⟨hsame.behaviors, hsame.refusals⟩, ?_, ?_, ?_⟩
      · exact (congrArg Setup.stackLimit hlimits).trans hloaded.stackLimit
      · exact (congrArg Setup.callLimit hlimits).trans hloaded.callLimit
      · rintro hcalm e' ⟨⟩
        exact hexpected (halike.calm hcalm)

/-- The session after several evaluations, each with its own budget. -/
def after (s : Session) (history : List (Budget × Bytes)) : Session :=
  history.foldl (fun s e => (s.eval e.1 e.2).1) s

/-- The invariant of a session between evaluations. It was `s₀` when it was set up, and its sources
had the blocks `bodies`. -/
structure Rests (s₀ s : Session) (T : Table) (σ : State) (bodies : List (List Item)) : Prop where
  resting : Resting T s.machine σ
  alike : s₀.Alike s
  stackLimit : s.machine.stackLimit = s₀.machine.stackLimit
  callLimit : s.machine.callLimit = s₀.machine.callLimit
  bodies : s₀.Calm → T.map Placement.body = bodies

theorem after_rests {s₀ s : Session} {T : Table} {σ : State} {bodies : List (List Item)}
    (h : Rests s₀ s T σ bodies) (history : List (Budget × Bytes)) :
    ∃ T' σ', Rests s₀ (s.after history) T' σ' ((history.map Prod.snd).foldl extend bodies) := by
  induction history generalizing s T σ bodies with
  | nil => exact ⟨T, σ, h⟩
  | cons e history ih =>
    obtain ⟨⟨T', σ', hrest, hbodies⟩, halike, hstack, hcall, -⟩ :=
      eval_evaluated h.resting e.1 e.2
    refine ih ⟨hrest, h.alike.trans halike, hstack.trans h.stackLimit, hcall.trans h.callLimit, ?_⟩
    intro hcalm
    rw [hbodies (h.alike.calm hcalm), h.bodies hcalm]

/-! ## Setting up -/

/-- Settings change no more of a machine than its limits. -/
theorem foldl_apply_machine (settings : List Setting) (s : Session) :
    ∃ a b, (settings.foldl apply s).machine =
      { s.machine with stackLimit := a, callLimit := b } := by
  induction settings generalizing s with
  | nil => exact ⟨_, _, rfl⟩
  | cons setting settings ih =>
    obtain ⟨a, b, h⟩ := ih (s.apply setting)
    refine ⟨a, b, ?_⟩
    rw [List.foldl_cons, h]
    cases setting <;> rfl

/-- Binding the names of builtins defines them, and leaves the rest of a machine as it is. -/
theorem foldl_define_builtins (l : List (Builtin × Nat))
    (hl : ∀ e ∈ l, Builtin.ofIndex? e.2 = some e.1) {T : Table} {m : Machine} {σ : State}
    (h : Represents T m σ) (hdistinct : m.symbols.Distinct) :
    ∃ r words σ', l.foldl (fun m (b, i) =>
        let (symbols, h) := m.symbols.intern (.ofWord b.name)
        { m with symbols, words := m.words.define h (.builtin i) }) m =
          { m with symbols := r, words := words } ∧ r.Distinct ∧
      Represents T { m with symbols := r, words := words } σ' := by
  induction l generalizing m σ with
  | nil => exact ⟨m.symbols, m.words, σ, rfl, hdistinct, h⟩
  | cons e l ih =>
    obtain ⟨b, i⟩ := e
    have hb : Builtin.ofIndex? i = some b := hl (b, i) List.mem_cons_self
    have hdistinct' := hdistinct.intern (.ofWord b.name)
    have hkept := m.symbols.keptBy_intern (.ofWord b.name)
    have hname := m.symbols.name?_intern (.ofWord b.name)
    have hmono := h.mono hkept hdistinct' (List.prefix_refl T)
    have hdefined := hmono.define hdistinct' hname (.builtin hb)
    obtain ⟨r, words, σ', heq, hr, hrep⟩ :=
      ih (fun e he => hl e (List.mem_cons_of_mem _ he)) hdefined hdistinct'
    exact ⟨r, words, σ', heq, hr, hrep⟩

/-- A session that was just set up is at rest. -/
theorem new_resting {r : Registry} (hr : r.Distinct) (settings : List Setting) :
    ∃ σ, Resting [] (new r settings).machine σ := by
  obtain ⟨a, b, hmachine⟩ := foldl_apply_machine settings { machine := { symbols := r } }
  have hempty : Represents [] ({ symbols := r, stackLimit := a, callLimit := b } : Machine)
      { words := fun _ => none } := by
    refine ⟨.nil, ?_, ?_, by simp⟩
    · intro h w _
      exact .none
    · intro h c hfind
      cases hfind
  have hall : ∀ e ∈ Builtin.all.zipIdx, Builtin.ofIndex? e.2 = some e.1 := by decide
  obtain ⟨r', words, σ, heq, hdistinct, hrep⟩ := foldl_define_builtins _ hall hempty hr
  have hnew : (new r settings).machine =
      { symbols := r', words := words, stackLimit := a, callLimit := b } := by
    simp only [new, hmachine, Machine.defineBuiltins]
    exact heq
  refine ⟨σ, ?_⟩
  rw [hnew]
  refine ⟨⟨⟨List.Pairwise.nil, by simp, ?_⟩, .refl _, hdistinct, hrep⟩, rfl, rfl, rfl⟩
  intro op hop
  simp at hop

theorem new_rests (names : List Name) (settings : List Setting) :
    ∃ σ, Rests (new (.of names) settings) (new (.of names) settings) [] σ [] := by
  obtain ⟨σ, hresting⟩ := new_resting (Registry.distinct_of names) settings
  exact ⟨σ, hresting, .refl _, rfl, rfl, fun _ => rfl⟩

/-- A session that was set up and then evaluated sources is at rest. -/
theorem new_after_rests (names : List Name) (settings : List Setting)
    (history : List (Budget × Bytes)) :
    ∃ T σ, Rests (new (.of names) settings) ((new (.of names) settings).after history) T σ
      (library (history.map Prod.snd)) := by
  obtain ⟨σ, h⟩ := new_rests names settings
  exact after_rests h history

end StackLang.Session
