import Mathlib
import StackLang.Proofs.Halting
import StackLang.Proofs.Simulation

/-!
# Evaluation refines the language of trees

A session without limits, whose devices take what they are offered, does with a source what running
the tree of the source does.

* `runs_advances`: a session carries out a run of its machine.
* `Pictures`: a state of trees that stands for a session.
* `Session.eval_refines_tree`: an evaluation that is not interrupted ends as the run of the tree
  does, and it ends if the run of the tree does.
-/

namespace StackLang

theorem Machine.running_of_step {m : Machine} (h : m.step ≠ .stuck) : m.running = true := by
  rw [Machine.running, decide_eq_true_iff]
  unfold Machine.step Machine.fetch? at h
  generalize m.pc = pc at h ⊢
  cases pc with
  | negSucc n => omega
  | ofNat n =>
    refine Int.ofNat_lt.2 (Nat.lt_of_not_le fun hle => h ?_)
    simp only [Array.getElem?_eq_none hle]

namespace Session

open StackLang.Tree

/-! ## Runs of a session -/

section

variable {s : Session} (h : s.Reliable)

include h

theorem step_goes {out : Bytes} {m' : Machine} (hgoes : s.machine.Goes out m') :
    s.machine.running = true ∧ ∃ t, s.step = (t, none) ∧ t.machine = m' ∧ s.Delivers out t := by
  have hcarried := step_carried h
  generalize s.step = ended at hcarried ⊢
  cases hgoes with
  | next hstep =>
    refine ⟨Machine.running_of_step (by simp [hstep]), ?_⟩
    rw [hstep] at hcarried
    cases hcarried with
    | next hmachine hdelivers => exact ⟨_, rfl, hmachine, hdelivers⟩
  | emit hstep =>
    refine ⟨Machine.running_of_step (by simp [hstep]), ?_⟩
    rw [hstep] at hcarried
    cases hcarried with
    | emit hmachine hdelivers => exact ⟨_, rfl, hmachine, hdelivers⟩

theorem loop_fault {f : Fault} {m' : Machine} (hfault : s.machine.step = .fault f m') :
    ∃ t, t.machine = m' ∧ s.Delivers [] t ∧
      ∀ i polls, s.loop i polls = (t, some (.halt (some (.fault f)))) := by
  have hcarried := step_carried h
  have hrunning : s.machine.running = true := Machine.running_of_step (by simp [hfault])
  rw [hfault] at hcarried
  generalize hstep : s.step = ended at hcarried
  cases hcarried with
  | @fault f m' t hmachine hdelivers =>
    refine ⟨t, hmachine, hdelivers, fun i polls => ?_⟩
    unfold loop
    rw [if_pos hrunning, hstep]

/-- A session carries out the instructions that its machine can run. -/
theorem runs_advances {n : Nat} {out : Bytes} {m' : Machine} (hruns : s.machine.Runs n out m') :
    ∃ t, t.machine = m' ∧ s.Delivers out t ∧ s.Advances n t := by
  generalize hm : s.machine = m at hruns
  induction hruns generalizing s with
  | refl m => exact ⟨s, hm, h.delivers (.refl s) rfl, .refl s⟩
  | @step n m m₁ m₂ out out' hgoes _ ih =>
    obtain ⟨hrunning, t, hstep, hmachine, hdelivers⟩ := step_goes h (hm ▸ hgoes)
    obtain ⟨u, hu, hrest, hadvances⟩ := ih (hdelivers.reliable h) hmachine
    exact ⟨u, hu, hdelivers.trans hrest, .step hrunning hstep hadvances⟩

end

/-- What comes after the run of a reliable session writes no more. -/
theorem finish_of_loop {s u : Session} (h : s.Reliable) {out : Bytes}
    (hdelivers : (s.setIndent (s.indent ++ lit "\t")).Delivers out u) :
    ∃ t, t.machine = u.machine ∧ s.Delivers out t ∧ ∀ budget : Budget,
      (s.setIndent (s.indent ++ lit "\t")).loop budget.interruption budget.polls = (u, none) →
        s.finish budget = (t, none) := by
  have hbefore := h.delivers (s.setIndent_alike (s.indent ++ lit "\t")) rfl
  have hu := hdelivers.reliable (setIndent_reliable h _)
  have hafter := hu.delivers (u.setIndent_alike s.indent) rfl
  obtain ⟨t, hflush, hmachine, hlast⟩ := flush_delivers (hafter.reliable hu)
  refine ⟨t, hmachine, ?_, fun budget hloop => ?_⟩
  · simpa using ((hbefore.trans hdelivers).trans hafter).trans hlast
  · simp only [finish, exec, hloop, hflush]

/-! ## Runs of a source -/

section

variable {s : Session} (h : s.Reliable) {n : Nat} {out : Bytes} {m : Machine}
  (hruns : s.machine.Runs n out m)

include h hruns

theorem finish_done (hover : m.running = false) :
    ∃ t, t.machine = m ∧ s.Delivers out t ∧
      ∀ i polls, n ≤ polls → s.finish ⟨polls, i⟩ = (t, none) := by
  have hindent := setIndent_reliable h (s.indent ++ lit "\t")
  obtain ⟨u, hmachine, hdelivers, hadvances⟩ := runs_advances hindent hruns
  obtain ⟨t, ht, hout, hfinish⟩ := finish_of_loop h hdelivers
  refine ⟨t, ht.trans hmachine, hout, fun i polls hle => hfinish ⟨polls, i⟩ ?_⟩
  exact hadvances.loop_done hle (hmachine ▸ hover) i

theorem finish_failed {f : Fault} {m' : Machine} (hfault : m.step = .fault f m') :
    ∃ t, t.machine = m' ∧ s.Delivers out t ∧
      ∀ i polls, n ≤ polls → s.finish ⟨polls, i⟩ = (t, some (.halt (some (.fault f)))) := by
  have hindent := setIndent_reliable h (s.indent ++ lit "\t")
  have hbefore := h.delivers (s.setIndent_alike (s.indent ++ lit "\t")) rfl
  obtain ⟨t, hmachine, hdelivers, hadvances⟩ := runs_advances hindent hruns
  have ht := hdelivers.reliable hindent
  obtain ⟨u, hu, hlast, hloop⟩ := loop_fault ht (hmachine ▸ hfault)
  have hafter := (hlast.reliable ht).delivers (u.setIndent_alike s.indent) rfl
  refine ⟨u.setIndent s.indent, hu, ?_, fun i polls hle => ?_⟩
  · simpa using ((hbefore.trans hdelivers).trans hlast).trans hafter
  · have hrun := hadvances.loop_eq i (polls - n)
    rw [Nat.add_sub_cancel' hle, hloop] at hrun
    simp only [finish, exec, hrun]

theorem finish_interrupted (i : Interruption) {polls : Nat} (hlt : polls < n) :
    ∃ t, s.finish ⟨polls, i⟩ = (t, some (.halt (some (.interrupted i)))) := by
  have hindent := setIndent_reliable h (s.indent ++ lit "\t")
  obtain ⟨t, -, -, hadvances⟩ := runs_advances hindent hruns
  obtain ⟨v, hfirst⟩ := hadvances.first hlt
  obtain ⟨u, hhalt, -⟩ := v.halt_eq (.interrupted i)
  exact ⟨u.setIndent s.indent, by simp only [finish, exec, hfirst.loop_interrupted, hhalt]⟩

end

/-! ## Evaluations -/

/-- The evaluation of a source settles on the result of its tree: it has the result with a budget
that is large enough, and is interrupted with one that is not. Without a result, it is interrupted
with every budget below the fuel. -/
inductive Settles (s : Session) (src : Bytes) (T : Table) (fuel : Nat) :
    Option (State × Option Fault) → Prop
  | result {t : Session} {n : Nat} {σ : State} {f : Option Fault}
    (hrest : Resting T t.machine σ) (hdelivers : s.Delivers σ.output t)
    (hends : ∀ i polls, n ≤ polls → s.eval ⟨polls, i⟩ src = (t, f.map .fault))
    (hcut : ∀ i polls, polls < n → ∃ u, s.eval ⟨polls, i⟩ src = (u, some (.interrupted i))) :
    Settles s src T fuel (some (σ, f))
  | timeout
    (hcut : ∀ i polls, polls < fuel → ∃ u, s.eval ⟨polls, i⟩ src = (u, some (.interrupted i))) :
    Settles s src T fuel none

section

variable {s t : Session} {src : Bytes} {T new : Table} {tree : List Item} {σ : State}

/-- A source that is loaded can be run from the start of its code. -/
theorem loaded_at (hloaded : Loaded T tree new s.machine t.machine σ) :
    ∃ (p : Nat) (code : List Op), Assembled t.machine.symbols (T ++ new) p tree code ∧
      Holds t.machine.setup.ops p code ∧ p + code.length = t.machine.program.ops.size ∧
      At t.machine.symbols (T ++ new) t.machine.setup t.machine.calls [] p t.machine
        { σ with output := [] } := by
  obtain ⟨p, code, hpc, hassembled, hops, hend⟩ := hloaded.code
  have hsound := hloaded.sound
  exact ⟨p, code, hassembled, hops, hend,
    ⟨hsound.linked, hsound.kept, hsound.distinct, hsound.represents.congr rfl rfl⟩, rfl, hpc, rfl,
    hloaded.loops⟩

theorem eval_of_load (hload : s.load src = (t, none)) (budget : Budget) :
    s.eval budget src = conclude (t.finish budget) := by
  rw [eval, run, hload]

theorem eval_interrupted (ht : t.Reliable) (hload : s.load src = (t, none)) {n : Nat} {out : Bytes}
    {m : Machine} (hruns : t.machine.Runs n out m) (i : Interruption) (polls : Nat)
    (hlt : polls < n) : ∃ u, s.eval ⟨polls, i⟩ src = (u, some (.interrupted i)) := by
  obtain ⟨u, hfinish⟩ := finish_interrupted ht hruns i hlt
  exact ⟨u.reset, by rw [eval_of_load hload, hfinish, conclude_some rfl]⟩

theorem loaded_settles (h : s.Reliable) (hstack : s.machine.stackLimit = 0)
    (hcalls : s.machine.callLimit = 0) (hload : s.load src = (t, none))
    (hloaded : Loaded T tree new s.machine t.machine σ) (halike : s.Alike t)
    (houtput : t.output = s.output) (fuel : Nat) :
    Settles s src (T ++ new) fuel (evaluate (label (T ++ new)) fuel σ tree) := by
  have hdelivers := h.delivers halike houtput
  have ht := hdelivers.reliable h
  obtain ⟨p, code, hassembled, hops, hend, hat⟩ := loaded_at hloaded
  have hmeets := run_meets (hloaded.stackLimit.trans hstack) (hloaded.callLimit.trans hcalls)
    hassembled hops hat fuel
  rw [evaluate]
  generalize Tree.run (label (T ++ new)) fuel { σ with output := [] } tree = outcome at hmeets ⊢
  cases hmeets with
  | @done n out m σ' hruns hat' hwritten =>
    have hpc : m.pc = m.program.ops.size := by
      rw [hat'.pc, hend, show m.program.ops = t.machine.program.ops from
        congrArg Setup.ops hat'.setup]
    have hover : m.running = false := by simp [Machine.running, hpc]
    obtain ⟨u, rfl, hout, hfinish⟩ := finish_done ht hruns hover
    refine .result ⟨hat'.sound.refresh, hpc, ?_, hat'.loops⟩ ?_ ?_
      (eval_interrupted ht hload hruns)
    · rw [hat'.calls, hloaded.calls]
    · rw [hwritten]
      exact hdelivers.trans hout
    · intro i polls hle
      rw [eval_of_load hload, hfinish i polls hle]
      rfl
  | @failed n out m m' f σ' σ₂ hruns hfault hsound hsetup hwords hwritten =>
    obtain ⟨u, rfl, hout, hfinish⟩ := finish_failed ht hruns hfault
    -- Machine and state may differ in the operands they dropped, but an error empties both stacks.
    have hrest := hsound.reset
    refine .result (t := u.reset) (n := n) ⟨?_, hrest.pc, hrest.calls, hrest.loops⟩ ?_ ?_
      (eval_interrupted ht hload hruns)
    · exact ⟨hrest.sound.linked, .refl _, hrest.sound.distinct,
        hrest.sound.represents.congr rfl hwords.symm⟩
    · rw [hwritten]
      exact (hdelivers.trans hout).setMachine s.machine u.machine.reset
    · intro i polls hle
      rw [eval_of_load hload, hfinish i polls hle, conclude_some rfl]
      rfl
  | timeout hruns hbound =>
    refine .timeout fun i polls hlt => ?_
    exact eval_interrupted ht hload hruns i polls (Nat.lt_of_lt_of_le hlt hbound)

/-- A source that compiles settles on the results of its tree. -/
theorem eval_settles (h : s.Reliable) (hstack : s.machine.stackLimit = 0)
    (hcalls : s.machine.callLimit = 0) (hrest : Resting T s.machine σ) {d : Draft}
    {program : Program}
    (hcompile : Draft.compile { symbols := s.machine.symbols, ops := s.machine.program.ops } src =
      (d, .ok program)) :
    ∃ tree new, ofSource? T.length src = some tree ∧
      new.map Placement.body = (blocks tree).map Prod.snd ∧
      ∀ fuel, Settles s src (T ++ new) fuel (evaluate (label (T ++ new)) fuel σ tree) := by
  obtain ⟨tree, htree⟩ := (compile_ok_iff _ src T.length).1 ⟨d, program, hcompile⟩
  rcases load_cases hrest src with
    ⟨-, -, -, -, -, -, -, hnone⟩ | ⟨t, tree', new, hload, htree', hloaded, halike, houtput⟩
  · rw [hnone h.calm] at htree
    cases htree
  · exact ⟨tree', new, htree', hloaded.bodies,
      loaded_settles h hstack hcalls hload hloaded halike houtput⟩

theorem Settles.ends {fuel : Nat} {f : Option Fault} (h : Settles s src T fuel (some (σ, f))) :
    ∃ t n, (∀ i polls, n ≤ polls → s.eval ⟨polls, i⟩ src = (t, f.map .fault)) ∧
      Resting T t.machine σ ∧ s.Delivers σ.output t := by
  cases h with
  | result hrest hdelivers hends _ => exact ⟨_, _, hends, hrest, hdelivers⟩

/-- An evaluation that is not interrupted has the result of the tree. -/
theorem evaluates_of_eval {budget : Budget} {e : Option Error}
    (h : ∀ fuel, Settles s src T fuel (evaluate (label T) fuel σ tree))
    (heval : s.eval budget src = (t, e)) (hne : e ≠ some (.interrupted budget.interruption)) :
    ∃ σ' f, Evaluates (label T) σ tree σ' f ∧ e = f.map .fault ∧ Resting T t.machine σ' ∧
      s.Delivers σ'.output t := by
  -- With more fuel than the budget has polls, the run of the tree is not cut off first.
  have hsettles := h (budget.polls + 1)
  generalize hevaluate : evaluate (label T) (budget.polls + 1) σ tree = result at hsettles
  obtain ⟨polls, i⟩ := budget
  cases hsettles with
  | timeout hcut =>
    obtain ⟨u, hu⟩ := hcut i polls (Nat.lt_succ_self polls)
    rw [heval] at hu
    cases hu
    exact absurd rfl hne
  | @result u n σ' f hrest hdelivers hends hcut =>
    rcases Nat.lt_or_ge polls n with hlt | hle
    · obtain ⟨u, hu⟩ := hcut i polls hlt
      rw [heval] at hu
      cases hu
      exact absurd rfl hne
    · have hu := hends i polls hle
      rw [heval] at hu
      cases hu
      exact ⟨σ', f, ⟨_, hevaluate⟩, rfl, hrest, hdelivers⟩

end

/-- The state `σ` of trees stands for the session `s`, in which `sources` were evaluated. The table
has the blocks of these sources, each with the address where its code starts; it matches blocks and
addresses one to one. -/
structure Pictures (s : Session) (sources : List Bytes) (T : Table) (σ : State) : Prop where
  bodies : T.map Placement.body = library sources
  linked : Linked s.machine.symbols T s.machine.program.ops
  represents : Represents T s.machine σ

theorem Pictures.resting {s : Session} {sources : List Bytes} {T T₀ : Table} {σ σ₀ : State}
    (h : Pictures s sources T σ) (hrest : Resting T₀ s.machine σ₀) : Resting T s.machine σ :=
  ⟨⟨h.linked, .refl _, hrest.sound.distinct, h.represents⟩, hrest.pc, hrest.calls, hrest.loops⟩

/-- Take a session without limits, whose devices take what they are offered, after any evaluations,
and a source that compiles. If the run of the tree of the source ends, so does the evaluation, given
a budget that is large enough; and if an evaluation is not interrupted, the run of the tree ends.
Both ways they end with the same values, definitions and fault, and the text of the run is what the
devices of the session get. -/
theorem eval_refines_tree (names : List Name) (settings : List Setting)
    (hreliable : (new (.of names) settings).Reliable)
    (hstack : (new (.of names) settings).machine.stackLimit = 0)
    (hcalls : (new (.of names) settings).machine.callLimit = 0)
    (history : List (Budget × Bytes)) (s : Session)
    (hs : s = (new (.of names) settings).after history) :
    (∃ T σ, Pictures s (history.map Prod.snd) T σ) ∧
    ∀ T σ, Pictures s (history.map Prod.snd) T σ → ∀ src d program,
      Draft.compile { symbols := s.machine.symbols, ops := s.machine.program.ops } src =
        (d, .ok program) →
      ∃ tree added, ofSource? T.length src = some tree ∧
        (T ++ added).map Placement.body = library (history.map Prod.snd ++ [src]) ∧
        (∀ σ' f, Evaluates (label (T ++ added)) σ tree σ' f →
          ∃ t n, (∀ i polls, n ≤ polls → s.eval ⟨polls, i⟩ src = (t, f.map .fault)) ∧
            Pictures t (history.map Prod.snd ++ [src]) (T ++ added) σ' ∧ s.Delivers σ'.output t) ∧
        ∀ budget t e, s.eval budget src = (t, e) → e ≠ some (.interrupted budget.interruption) →
          ∃ σ' f, Evaluates (label (T ++ added)) σ tree σ' f ∧ e = f.map .fault ∧
            Pictures t (history.map Prod.snd ++ [src]) (T ++ added) σ' ∧
            s.Delivers σ'.output t := by
  obtain ⟨T₀, σ₀, hrests⟩ := new_after_rests names settings history
  have hreliable' := after_reliable hreliable history
  rw [← hs] at hrests hreliable'
  have hsources := hrests.bodies hreliable.calm
  refine ⟨⟨T₀, σ₀, hsources, hrests.resting.sound.linked, hrests.resting.sound.represents⟩, ?_⟩
  intro T σ hpictures src d program hcompile
  obtain ⟨tree, added, htree, hbodies, hsettles⟩ := eval_settles hreliable'
    (hrests.stackLimit.trans hstack) (hrests.callLimit.trans hcalls)
    (hpictures.resting hrests.resting) hcompile
  have hlibrary : (T ++ added).map Placement.body = library (history.map Prod.snd ++ [src]) := by
    rw [library_concat, ← hpictures.bodies]
    exact extend_of_some htree hbodies
  refine ⟨tree, added, htree, hlibrary, ?_, ?_⟩
  · rintro σ' f ⟨fuel, hevaluate⟩
    obtain ⟨t, n, hends, hrest, hdelivers⟩ := (hevaluate ▸ hsettles fuel).ends
    exact ⟨t, n, hends, ⟨hlibrary, hrest.sound.linked, hrest.sound.represents⟩, hdelivers⟩
  · intro budget t e heval hne
    obtain ⟨σ', f, hevaluates, hf, hrest, hdelivers⟩ := evaluates_of_eval hsettles heval hne
    exact ⟨σ', f, hevaluates, hf, ⟨hlibrary, hrest.sound.linked, hrest.sound.represents⟩, hdelivers⟩

/-- A loop runs a word that an earlier source defined, with a buffered output: the tree of the
source runs to its end, and the run writes what the device gets. -/
theorem eval_refines_tree_countdown : ∃ T σ tree added σ',
    Pictures ((new (.of []) [.output (some (.buffered {} {}))]).after
      [({ polls := 9 }, lit "\x7b dup print 1 - \x7d :step def")])
      [lit "\x7b dup print 1 - \x7d :step def"] T σ ∧
    ofSource? T.length (lit "3 \x7b dup 0 > \x7d \x7b step \x7d while") = some tree ∧
    Evaluates (label (T ++ added)) σ tree σ' none ∧ σ'.output = lit "321" := by
  have hreliable : (new (.of []) [.output (some (.buffered {} {}))]).Reliable := by
    refine ⟨?_, ?_, by simp [new, apply]⟩ <;> intro stream hstream <;>
      obtain rfl : stream = .buffered {} {} := by simpa [new, apply] using hstream
    · exact Behavior.reliable_faithful
    · rfl
  generalize hs : (new (.of []) [.output (some (.buffered {} {}))]).after
    [({ polls := 9 }, lit "\x7b dup print 1 - \x7d :step def")] = s
  obtain ⟨d, program, hcompile⟩ : ∃ d program, Draft.compile
      { symbols := s.machine.symbols, ops := s.machine.program.ops }
      (lit "3 \x7b dup 0 > \x7d \x7b step \x7d while") = (d, .ok program) := by
    rw [← hs]
    exact ⟨_, _, by cbv⟩
  obtain ⟨t, heval, hreceived, hbefore⟩ : ∃ t,
      s.eval { polls := 99 } (lit "3 \x7b dup 0 > \x7d \x7b step \x7d while") = (t, none) ∧
      t.output.map Stream.received = [lit "321"] ∧ s.output.map Stream.received = [[]] := by
    rw [← hs]
    exact ⟨_, by cbv, by cbv, by cbv⟩
  obtain ⟨⟨T, σ, hpictures⟩, hrefines⟩ := eval_refines_tree [] _ hreliable rfl rfl _ s hs.symm
  obtain ⟨tree, added, htree, -, -, hback⟩ := hrefines T σ hpictures _ d program hcompile
  obtain ⟨σ', f, hevaluates, hf, -, hdelivers⟩ := hback _ t none heval (by simp)
  obtain rfl : f = none := by simpa using hf.symm
  refine ⟨T, σ, tree, added, σ', hpictures, htree, hevaluates, ?_⟩
  have hmap := congrArg (List.map (· ++ σ'.output)) hbefore
  rw [List.map_map] at hmap
  have houtput := hreceived.symm.trans (hdelivers.received.trans hmap)
  simpa using houtput.symm

end Session

end StackLang
