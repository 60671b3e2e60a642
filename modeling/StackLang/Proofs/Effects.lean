import StackLang.Proofs.Delivery

/-!
# What changes

What an instruction, a run and the loading of a source can change in a session. An instruction
writes neither code nor limits, and forgets no name; the only one that touches definitions is `def`.
A run does no more than its instructions, and puts the indentation of the log back. A source that is
refused leaves nothing but names.

* `Op.run_ensures`: all that an instruction other than `def` changes.
* `Machine.definition?`: what a `def` that is about to run binds (`Machine.step_words`).
* `Session.carried`, `loop_words`: the instructions that a run carries out, and the definitions then.
* `Session.load_changes`: the session after a source was refused, and after it was loaded.
-/

namespace StackLang

/-- Every machine that an effect leads to or leaves has a property. -/
def Effect.Ensures (P : Machine → Prop) : Effect → Prop
  | .next m => P m
  | .emit _ m => P m
  | .fault _ m => P m
  | .stuck => True

/-! ## Instructions -/

section

variable {P : Machine → Prop} {m : Machine} (hm : P m)

include hm

theorem Machine.push_ensures {v : Value}
    (hnext : P { m with stack := m.stack.push v, pc := m.pc + 1 }) : (m.push v).Ensures P := by
  unfold Machine.push
  split
  · exact hm
  · exact hnext

theorem Machine.dispatch_builtin_ensures (i : Int) : (m.dispatch (.builtin i)).Ensures P := by
  simp only [Machine.dispatch]
  cases Builtin.ofIndex? i with
  | none => exact hm
  | some builtin =>
    cases builtin with
    | print => cases m.stack.items <;> exact hm
    | nl => exact hm
    | stack => exact hm

theorem Machine.dispatch_ensures (hcall : ∀ calls pc, P { m with calls := calls, pc := pc })
    (c : Code) : (m.dispatch c).Ensures P := by
  cases c with
  | block start =>
    simp only [Machine.dispatch]
    split
    · exact hm
    · exact hcall _ _
  | builtin i => exact Machine.dispatch_builtin_ensures hm i
  | other tag address => exact hm

theorem Machine.popIntegers_ensures (word : String) {f : Int64 → Int64 → Machine → Effect}
    (hf : ∀ a b, (f a b (m.drop 2)).Ensures P) : (m.popIntegers word f).Ensures P := by
  unfold Machine.popIntegers
  split
  · split
    · exact hf _ _
    · exact hm
  · exact hm

theorem Machine.withLoop_ensures {f : Loop → List Loop → Effect}
    (hf : ∀ l loops, (f l loops).Ensures P) : (m.withLoop f).Ensures P := by
  unfold Machine.withLoop
  split
  · exact hf _ _
  · exact hm

end

/-- A value that an instruction may come up with: neither code nor a symbol. -/
def Value.Result : Value → Prop
  | bool _ => True
  | int _ => True
  | str _ => True
  | _ => False

/-- All that an instruction changes: the stacks, where the machine stands, and names that are new.
Only `push` puts code or a symbol on the stack that was not there, and only `def` also binds a
word. -/
theorem Op.run_ensures {P : Machine → Prop} {m : Machine} {op : Op} (hop : op ≠ .define)
    (hm : ∀ r, m.symbols.KeptBy r → (m.symbols.Distinct → r.Distinct) →
      ∀ stack : Stack Value,
        (∀ v ∈ stack.items, v ∈ m.stack.items ∨ op = .push v ∨ v.Result) →
        ∀ calls loops pc,
          P { m with symbols := r, stack := stack, calls := calls, loops := loops, pc := pc }) :
    (op.run m).Ensures P := by
  have hstack := hm m.symbols (.refl _) id
  have hsame : ∀ calls loops pc, P { m with calls := calls, loops := loops, pc := pc } :=
    hstack m.stack fun _ => Or.inl
  have hself : P m := hsame _ _ _
  have hdrop : ∀ n calls loops pc, P { m.drop n with calls := calls, loops := loops, pc := pc } :=
    fun n => hstack (m.stack.drop n) fun _ hv => Or.inl (List.mem_of_mem_drop hv)
  have hresult : ∀ (n : Nat) (v : Value), v.Result → ((m.drop n).push v).Ensures P := by
    intro n v hv
    refine Machine.push_ensures (hdrop n _ _ _) (hstack ((m.stack.drop n).push v) ?_ _ _ _)
    intro u hu
    rcases List.mem_cons.1 hu with rfl | hu
    · exact Or.inr (Or.inr hv)
    · exact Or.inl (List.mem_of_mem_drop hu)
  have hreplace : ∀ (n : Nat) (vs : List Value), (∀ v ∈ vs, v ∈ m.stack.items ∨ v.Result) →
      (m.replace n vs).Ensures P := by
    intro n vs hvs
    refine hstack (m.stack.replace n vs) ?_ _ _ _
    intro u hu
    rcases List.mem_append.1 hu with hu | hu
    · exact (hvs u hu).imp_right Or.inr
    · exact Or.inl (List.mem_of_mem_drop hu)
  have hdispatch : ∀ c, (m.dispatch c).Ensures P :=
    Machine.dispatch_ensures hself fun _ _ => hsame _ _ _
  cases op with
  | push v =>
    refine Machine.push_ensures hself (hstack (m.stack.push v) ?_ _ _ _)
    intro u hu
    rcases List.mem_cons.1 hu with rfl | hu
    · exact Or.inr (Or.inl rfl)
    · exact Or.inl hu
  | call h =>
    rw [Op.run]
    split
    · exact hdispatch _
    · exact hself
  | ret =>
    rw [Op.run]
    split
    · exact hsame _ _ _
    · exact hself
  | define => exact absurd rfl hop
  | add =>
    rw [Op.run, runAdd]
    split
    · split
      · exact hresult 2 _ trivial
      · rename_i a b _
        let grown := m.symbols.intern (m.symbols.joined a b)
        have hnew := hm grown.1 (m.symbols.keptBy_intern _) fun hdistinct => hdistinct.intern _
        refine Machine.push_ensures (m := { m.drop 2 with symbols := grown.1 })
          (hnew (m.stack.drop 2) ?_ _ _ _) (hnew ((m.stack.drop 2).push (.str grown.2)) ?_ _ _ _)
        · intro u hu
          exact Or.inl (List.mem_of_mem_drop hu)
        · intro u hu
          rcases List.mem_cons.1 hu with rfl | hu
          · exact Or.inr (Or.inr trivial)
          · exact Or.inl (List.mem_of_mem_drop hu)
      · exact hself
    · exact hself
  | arith f =>
    rw [Op.run]
    exact Machine.popIntegers_ensures hself _ fun a b => hresult 2 _ trivial
  | div =>
    rw [Op.run]
    refine Machine.popIntegers_ensures hself _ fun a b => ?_
    split
    · exact hdrop 2 _ _ _
    · exact hresult 2 _ trivial
  | compare f =>
    rw [Op.run]
    exact Machine.popIntegers_ensures hself _ fun a b => hresult 2 _ trivial
  | exec =>
    rw [Op.run, runExec]
    split
    · split
      · exact Machine.dispatch_ensures (hdrop 1 _ _ _) (fun _ _ => hdrop 1 _ _ _) _
      · exact hself
    · exact hself
  | loopEnter =>
    rw [Op.run, runLoopEnter]
    split
    · split
      · exact hdrop 2 _ _ _
      · exact hself
    · exact hself
  | loopCond => exact Machine.withLoop_ensures hself fun l loops => hdispatch _
  | loopBody => exact Machine.withLoop_ensures hself fun l loops => hdispatch _
  | loopExit target =>
    refine Machine.withLoop_ensures hself fun l loops => ?_
    dsimp only
    split
    · split
      · exact hreplace 1 _ (by simp [Value.Result])
      · exact hdrop 1 _ _ _
    · exact hself
  | jump target => exact hsame _ _ _
  | other code => trivial
  | dup =>
    rw [Op.run]
    split
    · rename_i v rest hitems
      refine Machine.push_ensures hself (hstack (m.stack.push v) ?_ _ _ _)
      intro u hu
      rcases List.mem_cons.1 hu with rfl | hu
      · exact Or.inl (by simp [hitems])
      · exact Or.inl hu
    · exact hself
  | eq | connect f =>
    rw [Op.run]
    split
    · exact hresult 2 _ trivial
    · exact hself
  | drop | not =>
    rw [Op.run]
    split
    · exact hreplace 1 _ (by simp [Value.Result])
    · exact hself
  | swap | rot | unrot | select =>
    rw [Op.run]
    split
    · rename_i hitems
      refine hreplace _ _ fun u hu => Or.inl ?_
      rw [hitems]
      grind
    · exact hself

/-- What a run leaves alone: the program, the limits, and the names that are known. -/
structure Machine.Preserves (m m' : Machine) : Prop where
  program : m'.program = m.program
  stackLimit : m'.stackLimit = m.stackLimit
  callLimit : m'.callLimit = m.callLimit
  symbols : m.symbols.KeptBy m'.symbols
  distinct : m.symbols.Distinct → m'.symbols.Distinct

/-- Definitions that are added one after the other. -/
def Dictionary.defineAll (d : Dictionary) (definitions : List (Handle × Code)) : Dictionary :=
  definitions.foldl (fun d e => d.define e.1 e.2) d

namespace Machine

theorem Preserves.refl (m : Machine) : m.Preserves m := ⟨rfl, rfl, rfl, .refl _, id⟩

theorem Preserves.trans {m₁ m₂ m₃ : Machine} (h : m₁.Preserves m₂) (h' : m₂.Preserves m₃) :
    m₁.Preserves m₃ where
  program := h'.program.trans h.program
  stackLimit := h'.stackLimit.trans h.stackLimit
  callLimit := h'.callLimit.trans h.callLimit
  symbols := h.symbols.trans h'.symbols
  distinct := h'.distinct ∘ h.distinct

/-- What a `def` that is about to run binds. -/
def definition? (m : Machine) : Option (Handle × Code) :=
  match m.fetch?, m.stack.items with
  | some .define, .sym h :: .code c :: _ => some (h, c)
  | _, _ => none

end Machine

/-- A `def` binds a word to code, or fails and leaves the machine as it is. -/
theorem Op.runDefine_cases (m : Machine) :
    (∃ h c rest, m.stack.items = .sym h :: .code c :: rest ∧
      runDefine m = .next { m.drop 2 with words := m.words.define h c, pc := m.pc + 1 }) ∨
    ∃ f, runDefine m = .fault f m := by
  unfold runDefine
  split
  · split
    · rename_i rest _ _ c h hitems
      exact Or.inl ⟨h, c, rest, hitems, rfl⟩
    · exact Or.inr ⟨_, rfl⟩
  · exact Or.inr ⟨_, rfl⟩

theorem Op.run_preserves (m : Machine) (op : Op) : (op.run m).Ensures m.Preserves := by
  by_cases hop : op = .define
  · subst hop
    rcases runDefine_cases m with ⟨h, c, rest, -, hrun⟩ | ⟨f, hrun⟩
    · rw [Op.run, hrun]
      exact ⟨rfl, rfl, rfl, .refl _, id⟩
    · rw [Op.run, hrun]
      exact .refl m
  · exact Op.run_ensures hop fun r hkept hdistinct _ _ _ _ _ => ⟨rfl, rfl, rfl, hkept, hdistinct⟩

/-! ## Output and log -/

/-- The log as it is before any call. -/
def Trace.unused (t : Trace) : Trace := { t with calls := 0, lines := #[] }

namespace Session

/-- An operation that may have called devices and logged lines, and did nothing else. The lines of
the log still start the same. -/
structure Idle (s t : Session) : Prop where
  machine : t.machine = s.machine
  retired : t.retired = s.retired
  indent : t.trace.map Trace.indent = s.trace.map Trace.indent

theorem Idle.refl (s : Session) : s.Idle s := ⟨rfl, rfl, rfl⟩

theorem Idle.trans {s₁ s₂ s₃ : Session} (h : s₁.Idle s₂) (h' : s₂.Idle s₃) : s₁.Idle s₃ :=
  ⟨h'.machine.trans h.machine, h'.retired.trans h.retired, h'.indent.trans h.indent⟩

/-- Logging a line changes no more of the log than its calls and its lines. -/
theorem log_unused (s : Session) (line : Bytes) :
    (s.log line).1.trace.map Trace.unused = s.trace.map Trace.unused := by
  unfold log
  split
  · rfl
  · rename_i t ht
    simp only [Trace.log, ht]
    split <;> rfl

theorem indent_of_unused {t t' : Option Trace} (h : t.map Trace.unused = t'.map Trace.unused) :
    t.map Trace.indent = t'.map Trace.indent := by
  have hindent := congrArg (Option.map Trace.indent) h
  rwa [Option.map_map, Option.map_map] at hindent

theorem log_idle (s : Session) (line : Bytes) : s.Idle (s.log line).1 where
  machine := (s.log_serves line).machine
  retired := by
    unfold log
    split <;> rfl
  indent := indent_of_unused (s.log_unused line)

theorem halt_unused (s : Session) (e : Option Error) :
    (s.halt e).1.trace.map Trace.unused = s.trace.map Trace.unused :=
  log_unused _ _

theorem halt_idle (s : Session) (e : Option Error) : s.Idle (s.halt e).1 :=
  have hlog := fun line => log_idle { s with output := s.output.flush.1 } line
  ⟨(hlog _).machine, (hlog _).retired, (hlog _).indent⟩

theorem afterCall_idle (s : Session) (called : Output × Reply) : s.Idle (s.afterCall called).1 := by
  unfold afterCall
  split
  · exact ⟨rfl, rfl, rfl⟩
  · rename_i output _ e
    have hhalt := halt_idle { s with output := output } (some (.output e))
    exact ⟨hhalt.machine, hhalt.retired, hhalt.indent⟩
  · exact ⟨rfl, rfl, rfl⟩

theorem write_idle (s : Session) (text : Bytes) : s.Idle (s.write text).1 := by
  simp only [write]
  generalize hcall : s.afterCall _ = ended
  have hidle := s.afterCall_idle
    (if Terminal.hasControl text then s.output.write (Terminal.encode text)
      else s.output.writeText text)
  rw [hcall] at hidle
  split
  · exact hidle.trans (afterCall_idle _ _)
  · exact hidle

theorem traceOp_idle (s : Session) (op : Op) : s.Idle (s.traceOp op).1 := by
  unfold traceOp
  split
  · exact .refl s
  · rename_i t ht
    have hcolumn : s.Idle
        { s with trace := some (t.column (op.format s.machine.symbols)).1 } := by
      refine ⟨rfl, rfl, ?_⟩
      rw [ht]
      unfold Trace.column
      split <;> rfl
    exact hcolumn.trans (log_idle _ _)

/-! ## Runs -/

/-- What a run leaves alone in a session. -/
structure Preserves (s t : Session) : Prop where
  machine : s.machine.Preserves t.machine
  retired : t.retired = s.retired
  indent : t.trace.map Trace.indent = s.trace.map Trace.indent

theorem Idle.preserves {s t : Session} (h : s.Idle t) : s.Preserves t :=
  ⟨h.machine ▸ .refl _, h.retired, h.indent⟩

theorem Preserves.trans {s₁ s₂ s₃ : Session} (h : s₁.Preserves s₂) (h' : s₂.Preserves s₃) :
    s₁.Preserves s₃ :=
  ⟨h.machine.trans h'.machine, h'.retired.trans h.retired, h'.indent.trans h.indent⟩

theorem perform_preserves {s : Session} {effect : Effect}
    (h : effect.Ensures s.machine.Preserves) : s.Preserves (s.perform effect).1 := by
  cases effect with
  | next m => exact ⟨h, rfl, rfl⟩
  | emit text m =>
    have hwrite := write_idle { s with machine := m } text
    have hset : s.Preserves { s with machine := m } := ⟨h, rfl, rfl⟩
    have hs := hset.trans hwrite.preserves
    simp only [perform]
    generalize { s with machine := m }.write text = written at hs ⊢
    obtain ⟨t, _ | a⟩ := written
    · refine hs.trans ⟨⟨rfl, rfl, rfl, .refl _, id⟩, rfl, rfl⟩
    · exact hs
  | fault f m =>
    have hset : s.Preserves { s with machine := m } := ⟨h, rfl, rfl⟩
    exact hset.trans (halt_idle _ (some (.fault f))).preserves
  | stuck => exact (Idle.refl s).preserves

theorem step_preserves (s : Session) : s.Preserves s.step.1 := by
  unfold step
  split
  · exact (Idle.refl s).preserves
  · rename_i op _
    have htrace := s.traceOp_idle op
    split
    · rename_i t heq
      rw [heq] at htrace
      exact htrace.preserves.trans (perform_preserves (op.run_preserves _))
    · exact htrace.preserves

theorem loop_preserves (s : Session) (i : Interruption) (polls : Nat) :
    s.Preserves (s.loop i polls).1 := by
  fun_induction loop i polls s with
  | case1 s _ t hstep =>
    have hpreserves := s.step_preserves
    rw [hstep] at hpreserves
    exact hpreserves.trans (halt_idle _ _).preserves
  | case2 s _ t hstep polls ih =>
    have hpreserves := s.step_preserves
    rw [hstep] at hpreserves
    exact hpreserves.trans ih
  | case3 polls s _ _ => exact s.step_preserves
  | case4 polls s _ => exact (Idle.refl s).preserves

/-- The log is indented while a program runs, and then as before. -/
theorem exec_preserves (s : Session) (budget : Budget) : s.Preserves (s.exec budget).1 := by
  have hloop := (s.setIndent (s.indent ++ lit "\t")).loop_preserves budget.interruption budget.polls
  refine ⟨hloop.machine, hloop.retired, ?_⟩
  have hlog := hloop.indent
  rw [exec]
  generalize (s.setIndent (s.indent ++ lit "\t")).loop budget.interruption budget.polls = ended
    at hlog ⊢
  simp only [setIndent, indent, Option.map_map] at hlog ⊢
  cases hs : s.trace with
  | none =>
    rw [hs] at hlog
    cases ht : ended.1.trace with
    | none => rfl
    | some t =>
      rw [ht] at hlog
      cases hlog
  | some t =>
    rw [hs] at hlog
    cases ht : ended.1.trace with
    | none =>
      rw [ht] at hlog
      cases hlog
    | some t' => rfl

theorem finish_preserves (s : Session) (budget : Budget) : s.Preserves (s.finish budget).1 := by
  have hexec := s.exec_preserves budget
  unfold finish
  split
  · rename_i t heq
    rw [heq] at hexec
    exact hexec.trans (afterCall_idle _ _).preserves
  · exact hexec

/-! ## Definitions -/

/-- The machines whose instructions a run carries out, each as it stands at its instruction. -/
def carried (polls : Nat) (s : Session) : List Machine :=
  if s.machine.running then
    match s.step with
    | (t, none) =>
      match polls with
      | 0 => [s.machine]
      | polls + 1 => s.machine :: carried polls t
    | _ => []
  else []

/-- A property of all machines of an effect is one of the session that has carried it out. -/
theorem perform_ensures {P : Machine → Prop} (hadvance : ∀ m, P m → P m.advance) {s : Session}
    {effect : Effect} (h : effect.Ensures P) (hs : P s.machine) :
    P (s.perform effect).1.machine := by
  cases effect with
  | next m => exact h
  | emit text m =>
    have hwrite := (write_idle { s with machine := m } text).machine
    simp only [perform]
    generalize { s with machine := m }.write text = written at hwrite ⊢
    obtain ⟨t, _ | a⟩ := written
    · exact hadvance _ (hwrite ▸ h)
    · exact hwrite ▸ h
  | fault f m => exact (halt_idle { s with machine := m } (some (.fault f))).machine ▸ h
  | stuck => exact hs

/-- How an instruction that was carried out, or was aborted, has left the words. -/
structure Binds (s : Session) (ended : Session × Option Abort) : Prop where
  carried : ended.2 = none →
    ended.1.machine.words = s.machine.words.defineAll s.machine.definition?.toList
  aborted : ended.2 ≠ none → ended.1.machine.words = s.machine.words

theorem perform_binds {s : Session} {op : Op} (hfetch : s.machine.fetch? = some op) :
    s.Binds (s.perform (op.run s.machine)) := by
  by_cases hop : op = .define
  · subst hop
    rcases Op.runDefine_cases s.machine with ⟨h, c, rest, hitems, hrun⟩ | ⟨f, hrun⟩
    · have hdefinition : s.machine.definition? = some (h, c) := by
        rw [Machine.definition?, hfetch, hitems]
      rw [Op.run, hrun]
      refine ⟨fun _ => ?_, fun haborted => absurd rfl haborted⟩
      rw [hdefinition]
      rfl
    · obtain ⟨t, hhalt, hmachine, -⟩ := s.halt_eq (.fault f)
      rw [Op.run, hrun, perform, hhalt]
      refine ⟨fun hnone => ?_, fun _ => congrArg Machine.words hmachine⟩
      cases hnone
  · have hdefinition : s.machine.definition? = none := by
      unfold Machine.definition?
      rw [hfetch]
      split
      · rename_i heq _
        exact absurd (Option.some.inj heq) hop
      · rfl
    have hwords : (s.perform (op.run s.machine)).1.machine.words = s.machine.words :=
      perform_ensures (P := fun m => m.words = s.machine.words) (fun _ h => h)
        (Op.run_ensures hop fun _ _ _ _ _ _ _ _ => rfl) rfl
    refine ⟨fun _ => ?_, fun _ => hwords⟩
    rw [hdefinition, hwords]
    rfl

theorem step_binds (s : Session) : s.Binds s.step := by
  unfold step
  cases hfetch : s.machine.fetch? with
  | none => exact ⟨nofun, fun _ => rfl⟩
  | some op =>
    have hidle := (s.traceOp_idle op).machine
    simp only
    generalize s.traceOp op = traced at hidle ⊢
    obtain ⟨t, _ | a⟩ := traced
    · have ht : t.machine = s.machine := hidle
      rw [← ht] at hfetch
      have hbinds := perform_binds hfetch
      exact ⟨ht ▸ hbinds.carried, ht ▸ hbinds.aborted⟩
    · exact ⟨nofun, fun _ => congrArg Machine.words hidle⟩

/-- After a run, the words are those from before and what its instructions have bound. -/
theorem loop_words (s : Session) (i : Interruption) (polls : Nat) :
    (s.loop i polls).1.machine.words =
      s.machine.words.defineAll ((s.carried polls).filterMap Machine.definition?) := by
  fun_induction loop i polls s with
  | case1 s hrunning t hstep =>
    have hwords := s.step_binds.carried (by rw [hstep])
    rw [hstep] at hwords
    have hcarried : s.carried 0 = [s.machine] := by rw [carried, if_pos hrunning, hstep]
    rw [(halt_idle _ _).machine, hwords, hcarried, List.filterMap_cons]
    cases s.machine.definition? <;> rfl
  | case2 s hrunning t hstep polls ih =>
    have hwords := s.step_binds.carried (by rw [hstep])
    rw [hstep] at hwords
    have hcarried : s.carried (polls + 1) = s.machine :: t.carried polls := by
      rw [carried, if_pos hrunning, hstep]
    rw [ih, hwords, hcarried, List.filterMap_cons]
    cases s.machine.definition? <;> rfl
  | case3 polls s hrunning hne =>
    have haborted : s.step.2 ≠ none := fun hnone => hne _ (Prod.ext rfl hnone)
    have hcarried : s.carried polls = [] := by
      rw [carried, if_pos hrunning]
      split
      · rename_i t heq
        exact absurd (congrArg Prod.snd heq) haborted
      · rfl
    rw [s.step_binds.aborted haborted, hcarried]
    rfl
  | case4 polls s hrunning =>
    rw [carried, if_neg hrunning]
    rfl

/-- What the instructions of a source bind that an evaluation of it carries out, in that order. -/
def definitions (s : Session) (budget : Budget) (src : Bytes) : List (Handle × Code) :=
  match s.load src with
  | (t, none) =>
    ((t.setIndent (t.indent ++ lit "\t")).carried budget.polls).filterMap Machine.definition?
  | _ => []

theorem finish_words (s : Session) (budget : Budget) :
    (s.finish budget).1.machine.words = s.machine.words.defineAll
      (((s.setIndent (s.indent ++ lit "\t")).carried budget.polls).filterMap
        Machine.definition?) := by
  have hexec : (s.exec budget).1.machine.words = _ :=
    loop_words (s.setIndent (s.indent ++ lit "\t")) budget.interruption budget.polls
  unfold finish
  split
  · rename_i t heq
    rw [heq] at hexec
    exact (congrArg Machine.words (t.afterCall_idle _).machine).trans hexec
  · exact hexec

/-! ## Loading -/

/-- A source that compiles is appended to the program. -/
theorem prefix_of_compile {d d' : Draft} {src : Bytes} {program : Program}
    (h : d.compile src = (d', .ok program)) : d.ops.toList <+: program.ops.toList := by
  obtain ⟨tree, new, blockCode, rootCode, -, hcompiled⟩ := Tree.compiled_of_compile h []
  rw [hcompiled.ops]
  exact List.prefix_append _ _

/-- Announcing blocks does nothing but log. -/
theorem announce_quiet (s : Session) (ls : List Layout) :
    (s.announce ls).1.output = s.output ∧ (s.announce ls).1.retired = s.retired ∧
      (s.announce ls).1.trace.map Trace.unused = s.trace.map Trace.unused := by
  induction ls generalizing s with
  | nil => exact ⟨rfl, rfl, rfl⟩
  | cons l ls ih =>
    have hlog := fun line =>
      And.intro (s.log_output line) (And.intro (s.log_idle line).retired (s.log_unused line))
    unfold announce
    split
    · rename_i t heq
      obtain ⟨houtput, hretired, htrace⟩ := hlog _
      rw [heq] at houtput hretired htrace
      obtain ⟨houtput', hretired', htrace'⟩ := ih t
      exact ⟨houtput'.trans houtput, hretired'.trans hretired, htrace'.trans htrace⟩
    · rename_i t abort _ heq
      obtain ⟨houtput, hretired, htrace⟩ := hlog _
      rw [heq] at houtput hretired htrace
      exact ⟨houtput, hretired, htrace⟩

/-- A source was refused: all that is left of it are names, lines in the log and at most one flush
of the output. -/
structure Refused (s t : Session) : Prop where
  machine : ∃ r, s.machine.symbols.KeptBy r ∧ (s.machine.symbols.Distinct → r.Distinct) ∧
    t.machine = { s.machine with symbols := r }
  output : t.output = s.output ∨ t.output = s.output.flush.1
  retired : t.retired = s.retired
  trace : t.trace.map Trace.unused = s.trace.map Trace.unused

/-- A source was compiled behind the program, which is ready to run it. -/
structure Accepted (s : Session) (d : Draft) (program : Program) (t : Session) : Prop where
  machine : t.machine =
    { s.machine with symbols := d.symbols, program := program, pc := program.entry }
  output : t.output = s.output
  retired : t.retired = s.retired
  trace : t.trace.map Trace.unused = s.trace.map Trace.unused

theorem load_changes (s : Session) (src : Bytes) :
    (∃ t a, s.load src = (t, some a) ∧ s.Refused t) ∨
    ∃ t d program, s.load src = (t, none) ∧
      Draft.compile { symbols := s.machine.symbols, ops := s.machine.program.ops } src =
        (d, .ok program) ∧ s.Accepted d program t := by
  obtain ⟨hkept, hdistinct, hlayouts⟩ := Draft.compile_grows
    { symbols := s.machine.symbols, ops := s.machine.program.ops } src
  unfold load
  generalize Draft.compile { symbols := s.machine.symbols, ops := s.machine.program.ops } src =
    compiled at hkept hdistinct hlayouts ⊢
  obtain ⟨d, result⟩ := compiled
  obtain ⟨houtput, hretired, htrace⟩ := s.announce_quiet d.layouts.reverse
  rcases s.announce_cases d.layouts.reverse with
    ⟨s', heq, hserves, -⟩ | ⟨s', a, heq, -, -, -, l, hl, hmachine⟩
  · rw [heq] at houtput hretired htrace
    simp only [heq]
    have hmachine := setSymbols_machine hserves.machine d.symbols
    cases result with
    | error e =>
      obtain ⟨t, hhalt, hm, -, hflush⟩ := (s'.setSymbols d.symbols).halt_eq (.fault (.parsing e))
      have hidle := (s'.setSymbols d.symbols).halt_idle (some (.fault (.parsing e)))
      have hunused := (s'.setSymbols d.symbols).halt_unused (some (.fault (.parsing e)))
      rw [hhalt] at hidle hunused
      refine Or.inl ⟨t, _, hhalt, ⟨d.symbols, hkept, hdistinct, hm.trans hmachine⟩, Or.inr ?_,
        hidle.retired.trans hretired, hunused.trans htrace⟩
      rw [hflush]
      exact congrArg (fun o => (Output.flush o).1) houtput
    | ok program =>
      refine Or.inr ⟨_, d, program, rfl, rfl, ?_, houtput, hretired, htrace⟩
      simp only [hmachine]
  · rw [heq] at houtput hretired htrace
    simp only [heq]
    obtain ⟨hkept', hdistinct'⟩ := (hlayouts l (List.mem_reverse.1 hl)).resolve_left (by simp)
    exact Or.inl ⟨s', a, rfl, ⟨l.symbols, hkept', hdistinct', hmachine⟩, Or.inl houtput, hretired,
      htrace⟩

/-! ## Another machine

Neither output nor log depends on the machine, and loading a source depends on its names and its
program only. -/

/-- The session with its machine changed. -/
def mapMachine (f : Machine → Machine) (s : Session) : Session := { s with machine := f s.machine }

section

variable (f : Machine → Machine) (s : Session)

theorem log_mapMachine (line : Bytes) :
    (s.mapMachine f).log line = (s.log line).map (mapMachine f) id := by
  obtain ⟨machine, output, retired, _ | trace⟩ := s
  · rfl
  · rfl

theorem halt_mapMachine (e : Option Error) :
    (s.mapMachine f).halt e = (s.halt e).map (mapMachine f) id := by
  obtain ⟨machine, output, retired, _ | trace⟩ := s
  · rfl
  · rfl

theorem afterCall_mapMachine (called : Output × Reply) :
    (s.mapMachine f).afterCall called = (s.afterCall called).map (mapMachine f) id := by
  obtain ⟨output, ⟨n, _ | e⟩ | message⟩ := called
  · rfl
  · exact halt_mapMachine f { s with output } (some (.output e))
  · rfl

theorem flush_mapMachine : (s.mapMachine f).flush = s.flush.map (mapMachine f) id :=
  afterCall_mapMachine f s s.output.flush

theorem write_mapMachine (text : Bytes) :
    (s.mapMachine f).write text = (s.write text).map (mapMachine f) id := by
  have houtput : (s.mapMachine f).output = s.output := rfl
  simp only [write, houtput, afterCall_mapMachine]
  generalize s.afterCall _ = called
  obtain ⟨t, _ | a⟩ := called
  · exact flush_mapMachine f t
  · rfl

end

/-- A change that has nothing to do with names and code. -/
structure Neutral (f : Machine → Machine) : Prop where
  symbols : ∀ m, (f m).symbols = m.symbols
  program : ∀ m, (f m).program = m.program
  setSymbols : ∀ m r, f { m with symbols := r } = { f m with symbols := r }
  place : ∀ m program pc,
    f { m with program := program, pc := pc } = { f m with program := program, pc := pc }

section

variable {f : Machine → Machine} (hf : Neutral f)

include hf

theorem setSymbols_mapMachine (s : Session) (r : Registry) :
    (s.mapMachine f).setSymbols r = (s.setSymbols r).mapMachine f := by
  rw [mapMachine, mapMachine, setSymbols, setSymbols, hf.setSymbols s.machine r]

theorem announce_mapMachine (s : Session) (layouts : List Layout) :
    (s.mapMachine f).announce layouts = (s.announce layouts).map (mapMachine f) id := by
  induction layouts generalizing s with
  | nil => rfl
  | cons l layouts ih =>
    simp only [announce, log_mapMachine]
    generalize s.log _ = logged
    obtain ⟨t, _ | a⟩ := logged
    · exact ih t
    · exact Prod.ext (setSymbols_mapMachine hf t l.symbols) rfl

/-- A source compiles to the same code. -/
theorem load_mapMachine (s : Session) (src : Bytes) :
    (s.mapMachine f).load src = (s.load src).map (mapMachine f) id := by
  have hsymbols : (s.mapMachine f).machine.symbols = s.machine.symbols := hf.symbols _
  have hprogram : (s.mapMachine f).machine.program = s.machine.program := hf.program _
  simp only [load, hsymbols, hprogram, announce_mapMachine hf]
  generalize Draft.compile { symbols := s.machine.symbols, ops := s.machine.program.ops } src =
    compiled
  obtain ⟨d, result⟩ := compiled
  generalize s.announce d.layouts.reverse = announced
  obtain ⟨t, _ | a⟩ := announced
  · simp only [Prod.map, id, setSymbols_mapMachine hf]
    cases result with
    | error e => exact halt_mapMachine f (t.setSymbols d.symbols) (some (.fault (.parsing e)))
    | ok program =>
      rw [mapMachine, mapMachine, hf.place (t.setSymbols d.symbols).machine program program.entry]
  · rfl

end

/-! ## Evaluations -/

/-- An evaluation ends as its run does, or with an error and a reset. -/
theorem eval_cases (s : Session) (budget : Budget) (src : Bytes) :
    s.eval budget src = ((s.run budget src).1, none) ∨
      ∃ a e, (s.run budget src).2 = some a ∧
        s.eval budget src = ((s.run budget src).1.reset, some e) := by
  unfold eval conclude guarded
  obtain ⟨t, _ | a⟩ := s.run budget src
  · exact Or.inl rfl
  · cases h : a.recover (lit "VM") with
    | none => exact Or.inl (by simp [h])
    | some e => exact Or.inr ⟨a, e, rfl, by simp [h]⟩

/-- After an evaluation, the words are those from before and what its instructions have bound. -/
theorem run_words (s : Session) (budget : Budget) (src : Bytes) :
    (s.run budget src).1.machine.words =
      s.machine.words.defineAll (s.definitions budget src) := by
  rcases s.load_changes src with ⟨t, a, hload, ⟨r, -, -, hmachine⟩, -⟩ |
    ⟨t, d, program, hload, -, haccepted⟩
  · have hnone : s.definitions budget src = [] := by rw [definitions, hload]
    rw [run, hload, hnone]
    simp only [hmachine]
    rfl
  · have hwords : t.machine.words = s.machine.words := by rw [haccepted.machine]
    rw [run, hload]
    simp only
    rw [finish_words, hwords, definitions, hload]

theorem eval_words (s : Session) (budget : Budget) (src : Bytes) :
    (s.eval budget src).1.machine.words =
      s.machine.words.defineAll (s.definitions budget src) := by
  rw [← s.run_words budget src]
  rcases s.eval_cases budget src with heval | ⟨a, e, -, heval⟩
  · rw [heval]
  · rw [heval]
    rfl

/-- A session forgets no name. -/
theorem run_symbols (s : Session) (budget : Budget) (src : Bytes) :
    s.machine.symbols.KeptBy (s.run budget src).1.machine.symbols ∧
      (s.machine.symbols.Distinct → (s.run budget src).1.machine.symbols.Distinct) := by
  rcases s.load_changes src with ⟨t, a, hload, ⟨r, hkept, hdistinct, hmachine⟩, -⟩ |
    ⟨t, d, program, hload, hcompile, haccepted⟩
  · rw [run, hload]
    simp only [hmachine]
    exact ⟨hkept, hdistinct⟩
  · obtain ⟨hkept, hdistinct, -⟩ := Draft.compile_grows
      { symbols := s.machine.symbols, ops := s.machine.program.ops } src
    have hfinish := (t.finish_preserves budget).machine
    rw [hcompile] at hkept hdistinct
    rw [run, hload]
    have hsymbols : t.machine.symbols = d.symbols := congrArg Machine.symbols haccepted.machine
    rw [← hsymbols] at hkept hdistinct
    exact ⟨hkept.trans hfinish.symbols, hfinish.distinct ∘ hdistinct⟩

theorem eval_symbols (s : Session) (budget : Budget) (src : Bytes) :
    s.machine.symbols.KeptBy (s.eval budget src).1.machine.symbols ∧
      (s.machine.symbols.Distinct → (s.eval budget src).1.machine.symbols.Distinct) := by
  have hrun := s.run_symbols budget src
  rcases s.eval_cases budget src with heval | ⟨a, e, -, heval⟩
  · rwa [heval]
  · rwa [heval]

end Session

end StackLang
