import Mathlib
import StackLang.Proofs.Joining
import StackLang.Proofs.ParallelRuns

/-!
# Splitting a session

Evaluating two sources one after the other does the same as evaluating both at once. The programs
differ: at once, the blocks of the second source come before the top-level code of the first one.
So the two runs are compared up to the addresses of blocks and the numbers of names.

* `Session.Yields`: what an evaluation ends with if its budget is large enough.
* `Session.Prepared`: a source that is ready to run.
* `SameBlock.renaming`: blocks are renamed one to one.
* `Session.eval_split`: splitting a session cannot be observed.
-/

namespace StackLang

namespace Tree

/-- What takes the blocks of one table to those of another can be extended to all addresses. -/
theorem SameBlock.renaming {r : Registry} {T T' : Table} {ops : Array Op} (hT : Ordered T)
    (hT' : Linked r T' ops) :
    ∃ ρ : Int → Int, Function.Injective ρ ∧ ∀ ⦃a a'⦄, SameBlock T T' a a' → ρ a = a' := by
  classical
  have hinside : ∀ ⦃a a'⦄, SameBlock T T' a a' → 0 ≤ a' ∧ a' < ops.size := by
    rintro _ _ ⟨-, hb'⟩
    have hlt := hT'.start_lt (List.mem_of_getElem? hb')
    omega
  have hone := fun a a' c c' (h : SameBlock T T' a a') (h' : SameBlock T T' c c') =>
    h.one_to_one hT hT'.ordered h'
  -- Addresses of no block go to where no block starts: below the program, or behind it.
  refine ⟨fun a => if h : ∃ a', SameBlock T T' a a' then h.choose
    else if 0 ≤ a then a + ops.size else a, ?_, ?_⟩
  · intro a c heq
    by_cases ha : ∃ a', SameBlock T T' a a' <;> by_cases hc : ∃ c', SameBlock T T' c c'
    · simp only [dif_pos ha, dif_pos hc] at heq
      exact (hone _ _ _ _ ha.choose_spec hc.choose_spec).2 heq
    · simp only [dif_pos ha, dif_neg hc] at heq
      have := hinside ha.choose_spec
      split at heq <;> omega
    · simp only [dif_neg ha, dif_pos hc] at heq
      have := hinside hc.choose_spec
      split at heq <;> omega
    · simp only [dif_neg ha, dif_neg hc] at heq
      split at heq <;> split at heq <;> omega
  · intro a a' h
    have hex : ∃ a', SameBlock T T' a a' := ⟨a', h⟩
    simp only [dif_pos hex]
    exact (hone _ _ _ _ hex.choose_spec h).1 rfl

end Tree

namespace Session

open StackLang.Tree

/-! ## Evaluations without a bound -/

/-- With every budget that is large enough, the evaluation of a source ends with the session `t` and
the error `e`. -/
def Yields (s : Session) (src : Bytes) (t : Session) (e : Option Error) : Prop :=
  ∃ n, ∀ i polls, n ≤ polls → s.eval ⟨polls, i⟩ src = (t, e)

theorem Yields.unique {s t t' : Session} {src : Bytes} {e e' : Option Error}
    (h : s.Yields src t e) (h' : s.Yields src t' e') : t = t' ∧ e = e' := by
  obtain ⟨n, hn⟩ := h
  obtain ⟨n', hn'⟩ := h'
  have heq := (hn .deadline _ (Nat.le_max_left n n')).symm.trans
    (hn' .deadline _ (Nat.le_max_right n n'))
  exact ⟨congrArg Prod.fst heq, congrArg Prod.snd heq⟩

/-- No instruction of the source writes a code value when it is evaluated. -/
def PrintsNoCode (s : Session) (src : Bytes) : Prop :=
  ∀ t, s.Running src t → ∀ v ∈ t.machine.written, v.code? = none

/-- The session `t'` has the values and the definitions of `t`, one by one, with handles matched by
their names and the addresses of blocks renamed by `ρ`. -/
structure Renamed (ρ : Int → Int) (t t' : Session) : Prop where
  injective : Function.Injective ρ
  stack : List.Forall₂
    (Value.Alike (fun a a' => ρ a = a') t.machine.symbols t'.machine.symbols)
    t.machine.stack.items t'.machine.stack.items
  words : List.Forall₂
    (Entry.Alike (fun a a' => ρ a = a') t.machine.symbols t'.machine.symbols)
    t.machine.words.entries t'.machine.words.entries

/-! ## Sources that are ready to run -/

/-- The session `t` has loaded a source with the items `tree`, and with its blocks the program has
the blocks of the table `T`. -/
structure Prepared (s : Session) (src : Bytes) (T : Table) (tree : List Item) (t : Session) :
    Prop where
  load : s.load src = (t, none)
  reliable : t.Reliable
  delivers : s.Delivers [] t
  carries : s.machine.Carries t.machine
  ready : Ready T t.machine tree
  governed : Governed t.machine.symbols T t.machine.setup t.machine.setup.ops.size [] [] t.machine

/-- A source that is a tree is made ready. -/
theorem load_prepared {T : Table} {s : Session} {σ : State} (hs : s.Reliable)
    (hrest : Resting T s.machine σ) {src : Bytes} {tree : List Item}
    (htree : ofSource? T.length src = some tree) :
    ∃ t new, new.map Placement.body = (blocks tree).map Prod.snd ∧
      s.Prepared src (T ++ new) tree t := by
  rcases load_cases hrest src with
    ⟨-, -, -, -, -, -, -, hnone⟩ | ⟨t, tree', new, hload, htree', hloaded, halike, houtput⟩
  · rw [hnone hs.calm] at htree
    cases htree
  rw [htree] at htree'
  cases htree'
  have hdelivers := hs.delivers halike houtput
  refine ⟨t, new, hloaded.bodies, hload, hdelivers.reliable hs, hdelivers, ?_, hloaded.ready,
    hloaded.governed⟩
  rcases s.load_changes src with ⟨t', a, hload', -⟩ | ⟨t', d, program, hload', hcompile, haccepted⟩
  · rw [hload] at hload'
    cases hload'
  · rw [hload] at hload'
    cases hload'
    obtain ⟨hkept, hdistinct, -⟩ := Draft.compile_grows
      { symbols := s.machine.symbols, ops := s.machine.program.ops } src
    rw [hcompile] at hkept hdistinct
    rw [haccepted.machine]
    exact ⟨rfl, hkept, hdistinct⟩

/-- A source that is ready to run in `t` is over after `n` steps, with the session `u`, or fails. -/
inductive Concludes (s t : Session) (n : Nat) : Session → Option Error → Prop
  | done {out : Bytes} {u : Session} (hruns : t.machine.Runs n out u.machine)
    (hover : u.machine.running = false) (hreliable : u.Reliable) (hdelivers : s.Delivers out u) :
    Concludes s t n u none
  | failed {out : Bytes} {m m' : Machine} {f : Fault} {u : Session}
    (hruns : t.machine.Runs n out m) (hfault : m.step = .fault f m') (hf : f.internal = false) :
    Concludes s t n u (some (.fault f))

namespace Prepared

variable {s t : Session} {src : Bytes} {T : Table} {tree : List Item} (h : s.Prepared src T tree t)

include h

theorem eval_done {n : Nat} {out : Bytes} {m : Machine} (hruns : t.machine.Runs n out m)
    (hover : m.running = false) :
    ∃ u, (∀ i polls, n ≤ polls → s.eval ⟨polls, i⟩ src = (u, none)) ∧ u.machine = m ∧
      u.Reliable ∧ s.Delivers out u := by
  obtain ⟨u, hu, hdelivers, hfinish⟩ := finish_done h.reliable hruns hover
  refine ⟨u, fun i polls hle => ?_, hu, hdelivers.reliable h.reliable, h.delivers.trans hdelivers⟩
  rw [eval_of_load h.load, hfinish i polls hle]
  rfl

theorem eval_failed {n : Nat} {out : Bytes} {m m' : Machine} {f : Fault}
    (hruns : t.machine.Runs n out m) (hfault : m.step = .fault f m') :
    ∃ u, ∀ i polls, n ≤ polls → s.eval ⟨polls, i⟩ src = (u, some (.fault f)) := by
  obtain ⟨u, -, -, hfinish⟩ := finish_failed h.reliable hruns hfault
  refine ⟨u.reset, fun i polls hle => ?_⟩
  rw [eval_of_load h.load, hfinish i polls hle, conclude_some rfl]

/-- A source whose machine does not go on for ever is run to its end, or up to a fault. -/
theorem concludes {bound : Nat} (hbound : ∀ ⦃n out m⦄, t.machine.Runs n out m → n ≤ bound) :
    ∃ n u e, n ≤ bound ∧ (∀ i polls, n ≤ polls → s.eval ⟨polls, i⟩ src = (u, e)) ∧
      s.Concludes t n u e := by
  rcases h.governed.outcome (bound + 1) with
    ⟨n, out, m, hruns, hover⟩ | ⟨n, out, m, f, m', hruns, hfault, hf⟩ | ⟨out, m, hruns⟩
  · obtain ⟨u, heval, rfl, hreliable, hdelivers⟩ := h.eval_done hruns hover
    exact ⟨n, u, none, hbound hruns, heval, .done hruns hover hreliable hdelivers⟩
  · obtain ⟨u, heval⟩ := h.eval_failed hruns hfault
    exact ⟨n, u, _, hbound hruns, heval, .failed hruns hfault hf⟩
  · exact absurd (hbound hruns) (Nat.not_succ_le_self bound)

/-- An evaluation that ends bounds what its machine can do. -/
theorem bounded {u : Session} {e : Option Error} (hyields : s.Yields src u e) :
    ∃ bound, ∀ ⦃n out m⦄, t.machine.Runs n out m → n ≤ bound := by
  obtain ⟨bound, hbound⟩ := hyields
  refine ⟨bound, fun n out m hruns => Nat.le_of_not_lt fun hlt => ?_⟩
  -- The interruption would show in the result.
  obtain ⟨u₁, h₁⟩ := eval_interrupted h.reliable h.load hruns .deadline bound hlt
  obtain ⟨u₂, h₂⟩ := eval_interrupted h.reliable h.load hruns .cancelled bound hlt
  rw [hbound _ bound (Nat.le_refl bound)] at h₁ h₂
  cases h₁
  cases h₂

theorem of_yields {u : Session} {e : Option Error} (hyields : s.Yields src u e) :
    ∃ n, s.Concludes t n u e := by
  obtain ⟨bound, hbound⟩ := h.bounded hyields
  obtain ⟨n, u', e', -, heval, hconcludes⟩ := h.concludes hbound
  obtain ⟨rfl, rfl⟩ := hyields.unique ⟨n, heval⟩
  exact ⟨n, hconcludes⟩

/-- An evaluation that is not interrupted ends in the same way with every larger budget. -/
theorem yields_of_eval {u : Session} {e : Option Error} {budget : Budget}
    (heval : s.eval budget src = (u, e)) (he : e ≠ some (.interrupted budget.interruption)) :
    s.Yields src u e := by
  obtain ⟨polls, i⟩ := budget
  have hbound : ∀ ⦃n out m⦄, t.machine.Runs n out m → n ≤ polls := by
    intro n out m hruns
    refine Nat.le_of_not_lt fun hlt => ?_
    obtain ⟨u', hcut⟩ := eval_interrupted h.reliable h.load hruns i polls hlt
    rw [heval] at hcut
    cases hcut
    exact he rfl
  obtain ⟨n, u', e', hle, heval', -⟩ := h.concludes hbound
  have heq := heval' i polls hle
  rw [heval] at heq
  cases heq
  exact ⟨n, heval'⟩

/-- The machine comes to no instruction that the source does not come to. -/
theorem writesNoCode (hprints : s.PrintsNoCode src) : t.machine.WritesNoCode := by
  have hreach : ∀ {n out m v}, s.Running src v → v.Reliable → v.machine.Runs n out m →
      ∃ w, s.Running src w ∧ w.machine = m := by
    intro n out m v hrunning hv hruns
    generalize hm : v.machine = m₀ at hruns
    induction hruns generalizing v with
    | refl m => exact ⟨v, hrunning, hm⟩
    | step hgoes _ ih =>
      obtain ⟨hbusy, w, hstep, hw, hdelivers⟩ := step_goes hv (hm ▸ hgoes)
      exact ih (.step hrunning hbusy hstep) (hdelivers.reliable hv) hw
  intro n out m hruns
  obtain ⟨w, hw, rfl⟩ := hreach (.load h.load) (setIndent_reliable h.reliable _) hruns
  exact hprints w hw

end Prepared

/-- For a source that compiles, an evaluation that is not interrupted shows what it yields. -/
theorem after_yields {names : List Name} {settings : List Setting}
    (hreliable : (new (.of names) settings).Reliable) {history : List (Budget × Bytes)}
    {src : Bytes} (hcompile : ∃ d program, Draft.compile {} src = (d, .ok program))
    {budget : Budget} {u : Session} {e : Option Error}
    (heval : ((new (.of names) settings).after history).eval budget src = (u, e))
    (he : e ≠ some (.interrupted budget.interruption)) :
    ((new (.of names) settings).after history).Yields src u e := by
  obtain ⟨T, σ, hrests⟩ := new_after_rests names settings history
  obtain ⟨tree, htree⟩ := (compile_ok_iff {} src T.length).1 hcompile
  obtain ⟨t, new, -, hprepared⟩ :=
    load_prepared (after_reliable hreliable history) hrests.resting htree
  exact hprepared.yields_of_eval heval he

/-! ## Two sources -/

/-- In the session `s`, the source `src₁` is ready to run in `t₁`, and `src₁` and `src₂` joined are
ready to run in `t`. -/
structure Joined (s : Session) (src₁ src₂ : Bytes) (T₁ T : Table) (tree₁ tree₂ : List Item)
    (t₁ t : Session) : Prop where
  first : s.Prepared src₁ T₁ tree₁ t₁
  both : s.Prepared (src₁ ++ Byte.newline :: src₂) T (tree₁ ++ tree₂) t
  tree : ofSource? T₁.length src₂ = some tree₂
  bodies : T.map Placement.body = T₁.map Placement.body ++ (blocks tree₂).map Prod.snd
  data : t₁.machine.SameData (SameBlock T₁ T) t.machine

theorem exists_joined {T₀ : Table} {s : Session} {σ : State} (hs : s.Reliable)
    (hrest : Resting T₀ s.machine σ) (hunique : s.machine.words.Unique) {d : Draft}
    {src₁ src₂ : Bytes} (h₁ : ∃ d' program, d.compile src₁ = (d', .ok program))
    (h₂ : ∃ d' program, d.compile src₂ = (d', .ok program)) :
    ∃ T₁ T tree₁ tree₂ t₁ t, s.Joined src₁ src₂ T₁ T tree₁ tree₂ t₁ t := by
  obtain ⟨tree₁, htree₁⟩ := (compile_ok_iff d src₁ T₀.length).1 h₁
  obtain ⟨tree₂, htree₂⟩ := (compile_ok_iff d src₂ (T₀.length + (blocks tree₁).length)).1 h₂
  obtain ⟨t₁, new₁, hbodies₁, hfirst⟩ := load_prepared hs hrest htree₁
  obtain ⟨t, new, hbodies, hboth⟩ := load_prepared hs hrest (ofSource?_join htree₁ htree₂)
  have hlength : new₁.length = (blocks tree₁).length := by
    simpa using congrArg List.length hbodies₁
  refine ⟨T₀ ++ new₁, T₀ ++ new, tree₁, tree₂, t₁, t, hfirst, hboth, ?_, ?_, ?_⟩
  · rw [List.length_append, hlength]
    exact htree₂
  · rw [List.map_append, List.map_append, hbodies, hbodies₁, blocks_append, List.map_append,
      List.append_assoc]
  · refine (hrest.sameData hunique).carries hfirst.carries hboth.carries fun a a' hstart => ?_
    exact hstart.mono (List.prefix_append T₀ new₁) (List.prefix_append T₀ new)

/-- The second source is ready to run in `t₂`, when `src₁` has left the session `u₁`; and the
machine `e` is about to run the rest of the two sources joined. -/
structure Resumed (u₁ : Session) (src₂ : Bytes) (T₂ T : Table) (tree₂ : List Item) (t₂ : Session)
    (e : Machine) : Prop where
  second : u₁.Prepared src₂ T₂ tree₂ t₂
  aligned : Aligned T₂ T t₂.machine e tree₂ []
  data : t₂.machine.SameData (SameBlock T₂ T) e

namespace Joined

variable {s t₁ t : Session} {src₁ src₂ : Bytes} {T₁ T : Table} {tree₁ tree₂ : List Item}
  (h : s.Joined src₁ src₂ T₁ T tree₁ tree₂ t₁ t)

include h

theorem aligned : Aligned T₁ T t₁.machine t.machine tree₁ tree₂ where
  ready := h.first.ready
  ready' := h.both.ready
  bodies := by
    rw [h.bodies]
    exact List.prefix_append _ _

/-- When the first source is done, the two sources joined are about to go on with the second one. -/
theorem resumed {u₁ : Session} (hfirst : s.Yields src₁ u₁ none) :
    ∃ T₂ t₂ n out out' e, u₁.Resumed src₂ T₂ T tree₂ t₂ e ∧ s.Delivers out u₁ ∧
      t.machine.Runs n out' e ∧ (s.PrintsNoCode src₁ → out = out') := by
  obtain ⟨n, @⟨out, _, hruns, hover, hu₁, hdelivers⟩⟩ := h.first.of_yields hfirst
  obtain ⟨σ, hrest⟩ := (h.first.governed.runs hruns).resting hover
  obtain ⟨out', e, hruns', hdata, hready, htext⟩ := h.aligned.done h.data hruns ⟨σ, hrest⟩
  obtain ⟨t₂, new₂, hbodies₂, hsecond⟩ := load_prepared hu₁ hrest h.tree
  refine ⟨T₁ ++ new₂, t₂, n, out, out', e, ⟨hsecond, ⟨hsecond.ready, ?_, ?_⟩, ?_⟩, hdelivers,
    hruns', fun hprints => htext (h.first.writesNoCode hprints)⟩
  · rwa [List.append_nil]
  · -- Blocks are numbered by their closing braces, so that both tables have them in one order.
    rw [h.bodies, List.map_append, hbodies₂]
  · refine hdata.carries hsecond.carries (.refl e) fun a a' hstart => ?_
    exact hstart.mono (List.prefix_append T₁ new₂) (List.prefix_refl T)

/-- If the first source fails, both fail. -/
theorem first_fails {u₁ : Session} {e : Error} (hfirst : s.Yields src₁ u₁ (some e)) :
    ∃ u, s.Yields (src₁ ++ Byte.newline :: src₂) u (some e) := by
  obtain ⟨n, hconcludes⟩ := h.first.of_yields hfirst
  cases hconcludes with
  | failed hruns hfault hf =>
    obtain ⟨out', e, e', hruns', hfault'⟩ := h.aligned.failed h.data hruns hfault hf
    obtain ⟨u, heval⟩ := h.both.eval_failed hruns' hfault'
    exact ⟨u, n, heval⟩

/-- If the second source fails, both fail. -/
theorem second_fails {u₁ u₂ : Session} {e : Error} (hfirst : s.Yields src₁ u₁ none)
    (hsecond : u₁.Yields src₂ u₂ (some e)) :
    ∃ u, s.Yields (src₁ ++ Byte.newline :: src₂) u (some e) := by
  obtain ⟨T₂, t₂, n, out, out', e', hresumed, -, hruns, -⟩ := h.resumed hfirst
  obtain ⟨k, hconcludes⟩ := hresumed.second.of_yields hsecond
  cases hconcludes with
  | failed hruns₂ hfault hf =>
    obtain ⟨out₂', e₂, e₂', hruns₂', hfault'⟩ :=
      hresumed.aligned.failed hresumed.data hruns₂ hfault hf
    obtain ⟨u, heval⟩ := h.both.eval_failed (hruns.trans hruns₂') hfault'
    exact ⟨u, _, heval⟩

/-- If both sources succeed one after the other, they succeed at once, up to the addresses of
blocks. -/
theorem both_succeed {u₁ u₂ : Session} (hfirst : s.Yields src₁ u₁ none)
    (hsecond : u₁.Yields src₂ u₂ none) :
    ∃ u, s.Yields (src₁ ++ Byte.newline :: src₂) u none ∧ (∃ ρ, u₂.Renamed ρ u) ∧
      (s.PrintsNoCode src₁ → u₁.PrintsNoCode src₂ →
        u₂.output.map Stream.received = u.output.map Stream.received) := by
  obtain ⟨T₂, t₂, n, out₁, out₁', e, hresumed, hdelivers₁, hruns, htext₁⟩ := h.resumed hfirst
  obtain ⟨k, @⟨out₂, _, hruns₂, hover, -, hdelivers₂⟩⟩ := hresumed.second.of_yields hsecond
  have hrest := (hresumed.second.governed.runs hruns₂).resting hover
  obtain ⟨out₂', e', hruns₂', hdata, hready, htext₂⟩ :=
    hresumed.aligned.done hresumed.data hruns₂ hrest
  obtain ⟨u, heval, rfl, -, hdelivers⟩ := h.both.eval_done (hruns.trans hruns₂') hready.over
  refine ⟨u, ⟨_, heval⟩, ?_, fun hprints₁ hprints₂ => ?_⟩
  · obtain ⟨ρ, hinjective, hρ⟩ :=
      SameBlock.renaming hresumed.second.ready.linked.ordered hready.linked
    refine ⟨ρ, hinjective, ?_, ?_⟩
    · exact hdata.stack.imp fun _ _ hv => hv.imp hρ (.refl _) (.refl _)
    · exact hdata.words.imp fun _ _ he => he.imp hρ (.refl _) (.refl _)
  · rw [(hdelivers₁.trans hdelivers₂).received, hdelivers.received, htext₁ hprints₁,
      htext₂ (hresumed.second.writesNoCode hprints₂)]

/-- If both come to an end at once, so does the first source. -/
theorem first_ends {u : Session} {e : Option Error}
    (hboth : s.Yields (src₁ ++ Byte.newline :: src₂) u e) : ∃ u₁ e₁, s.Yields src₁ u₁ e₁ := by
  obtain ⟨bound, hbound⟩ := h.both.bounded hboth
  have hfirst : ∀ ⦃n out m⦄, t₁.machine.Runs n out m → n ≤ bound := by
    intro n out m hruns
    obtain ⟨out', m', hruns', -⟩ := (h.aligned.parallel h.data).runs hruns
    exact hbound hruns'
  obtain ⟨n, u₁, e₁, -, heval, -⟩ := h.first.concludes hfirst
  exact ⟨u₁, e₁, n, heval⟩

/-- If both come to an end at once, so does the second source behind the first one. -/
theorem second_ends {u u₁ : Session} {e : Option Error}
    (hboth : s.Yields (src₁ ++ Byte.newline :: src₂) u e) (hfirst : s.Yields src₁ u₁ none) :
    ∃ u₂ e₂, u₁.Yields src₂ u₂ e₂ := by
  obtain ⟨bound, hbound⟩ := h.both.bounded hboth
  obtain ⟨T₂, t₂, n, out, out', e', hresumed, -, hruns, -⟩ := h.resumed hfirst
  have hsecond : ∀ ⦃k out₂ m⦄, t₂.machine.Runs k out₂ m → k ≤ bound := by
    intro k out₂ m hruns₂
    obtain ⟨out₂', m', hruns₂', -⟩ := (hresumed.aligned.parallel hresumed.data).runs hruns₂
    have hle := hbound (hruns.trans hruns₂')
    omega
  obtain ⟨k, u₂, e₂, -, heval, -⟩ := hresumed.second.concludes hsecond
  exact ⟨u₂, e₂, k, heval⟩

/-- Two sources that succeed at once succeed one after the other. -/
theorem one_by_one {u : Session} (hboth : s.Yields (src₁ ++ Byte.newline :: src₂) u none) :
    ∃ u₁ u₂, s.Yields src₁ u₁ none ∧ u₁.Yields src₂ u₂ none := by
  obtain ⟨u₁, e₁, hfirst⟩ := h.first_ends hboth
  cases e₁ with
  | some e =>
    obtain ⟨u', hfails⟩ := h.first_fails hfirst
    cases (hboth.unique hfails).2
  | none =>
    obtain ⟨u₂, e₂, hsecond⟩ := h.second_ends hboth hfirst
    cases e₂ with
    | some e =>
      obtain ⟨u', hfails⟩ := h.second_fails hfirst hsecond
      cases (hboth.unique hfails).2
    | none => exact ⟨u₁, u₂, hfirst, hsecond⟩

end Joined

/-- Take a session whose devices and log take all they are offered, after any evaluations, and two
sources that compile. They are evaluated with success one after the other if and only if both
joined by a line break are evaluated with success. Then the values on the stack and the
definitions are the same, one by one, up to an injective renaming of the addresses of blocks; and
the devices have received the same, unless a code value was printed. If one of the two sources
fails, both joined fail with the same error. -/
theorem eval_split (names : List Name) (settings : List Setting)
    (hreliable : (new (.of names) settings).Reliable) (history : List (Budget × Bytes))
    (s : Session) (hs : s = (new (.of names) settings).after history) (src₁ src₂ : Bytes)
    (h₁ : ∃ d program, Draft.compile {} src₁ = (d, .ok program))
    (h₂ : ∃ d program, Draft.compile {} src₂ = (d, .ok program)) :
    ((∃ t₁ t₂, s.Yields src₁ t₁ none ∧ t₁.Yields src₂ t₂ none) ↔
      ∃ t, s.Yields (src₁ ++ Byte.newline :: src₂) t none) ∧
    (∀ t₁ t₂ t, s.Yields src₁ t₁ none → t₁.Yields src₂ t₂ none →
      s.Yields (src₁ ++ Byte.newline :: src₂) t none →
      (∃ ρ, t₂.Renamed ρ t) ∧
      (s.PrintsNoCode src₁ → t₁.PrintsNoCode src₂ →
        t₂.output.map Stream.received = t.output.map Stream.received)) ∧
    (∀ t₁ e, s.Yields src₁ t₁ (some e) →
      ∃ t, s.Yields (src₁ ++ Byte.newline :: src₂) t (some e)) ∧
    ∀ t₁ t₂ e, s.Yields src₁ t₁ none → t₁.Yields src₂ t₂ (some e) →
      ∃ t, s.Yields (src₁ ++ Byte.newline :: src₂) t (some e) := by
  obtain ⟨T₀, σ, hrests⟩ := new_after_rests names settings history
  have hreliable' := after_reliable hreliable history
  have hunique := after_unique (new_unique (.of names) settings) history
  rw [← hs] at hrests hreliable' hunique
  obtain ⟨T₁, T, tree₁, tree₂, t₁', t', h⟩ :=
    exists_joined hreliable' hrests.resting hunique h₁ h₂
  refine ⟨⟨?_, ?_⟩, ?_, ?_, ?_⟩
  · rintro ⟨t₁, t₂, hfirst, hsecond⟩
    obtain ⟨t, hboth, -⟩ := h.both_succeed hfirst hsecond
    exact ⟨t, hboth⟩
  · rintro ⟨t, hboth⟩
    exact h.one_by_one hboth
  · intro t₁ t₂ t hfirst hsecond hboth
    obtain ⟨u, hyields, hsame⟩ := h.both_succeed hfirst hsecond
    obtain ⟨rfl, -⟩ := hboth.unique hyields
    exact hsame
  · intro t₁ e hfirst
    exact h.first_fails hfirst
  · intro t₁ t₂ e hfirst hsecond
    exact h.second_fails hfirst hsecond

/-- The first source ends in a comment, and the second one leaves a block on the stack: its address
is another one if the two are evaluated at once. -/
theorem eval_split_moved : ∃ s t₁ t₂ t ρ,
    s = (new (.of []) [.output (some (.buffered {} {})), .stackLimit 2]).after
      [({ polls := 9 }, lit "\x7b 2 * \x7d :twice def")] ∧
    s.Yields (lit "3 twice # six") t₁ none ∧ t₁.Yields (lit "\x7b 7 \x7d") t₂ none ∧
    s.Yields (lit "3 twice # six" ++ Byte.newline :: lit "\x7b 7 \x7d") t none ∧
    t₂.Renamed ρ t ∧ t₂.machine.stack.items = [.code (.block 8), .int 6] ∧
    t.machine.stack.items = [.code (.block 6), .int 6] := by
  have hreliable : (new (.of []) [.output (some (.buffered {} {})), .stackLimit 2]).Reliable := by
    refine ⟨?_, ?_, by simp [new, apply]⟩ <;> intro stream hstream <;>
      obtain rfl : stream = .buffered {} {} := by simpa [new, apply] using hstream
    · exact Behavior.reliable_faithful
    · rfl
  have h₁ : ∃ d program, Draft.compile {} (lit "3 twice # six") = (d, .ok program) :=
    ⟨_, _, by cbv⟩
  have h₂ : ∃ d program, Draft.compile {} (lit "\x7b 7 \x7d") = (d, .ok program) :=
    ⟨_, _, by cbv⟩
  have h : ∃ d program, Draft.compile {}
      (lit "3 twice # six" ++ Byte.newline :: lit "\x7b 7 \x7d") = (d, .ok program) :=
    ⟨_, _, by cbv⟩
  obtain ⟨s, t₁, t₂, t, hs, ht₁, heval₁, heval₂, heval, hblock₂, hblock⟩ : ∃ s t₁ t₂ t,
      s = (new (.of []) [.output (some (.buffered {} {})), .stackLimit 2]).after
        [({ polls := 9 }, lit "\x7b 2 * \x7d :twice def")] ∧
      t₁ = (new (.of []) [.output (some (.buffered {} {})), .stackLimit 2]).after
        [({ polls := 9 }, lit "\x7b 2 * \x7d :twice def"), ({ polls := 99 }, lit "3 twice # six")] ∧
      s.eval { polls := 99 } (lit "3 twice # six") = (t₁, none) ∧
      t₁.eval { polls := 99 } (lit "\x7b 7 \x7d") = (t₂, none) ∧
      s.eval { polls := 99 }
        (lit "3 twice # six" ++ Byte.newline :: lit "\x7b 7 \x7d") = (t, none) ∧
      t₂.machine.stack.items = [.code (.block 8), .int 6] ∧
      t.machine.stack.items = [.code (.block 6), .int 6] :=
    ⟨_, _, _, _, rfl, rfl, by cbv, by cbv, by cbv, by cbv, by cbv⟩
  have hfirst : s.Yields _ t₁ none := hs ▸ after_yields hreliable h₁ (hs ▸ heval₁) (by simp)
  have hsecond : t₁.Yields _ t₂ none := ht₁ ▸ after_yields hreliable h₂ (ht₁ ▸ heval₂) (by simp)
  have hboth : s.Yields _ t none := hs ▸ after_yields hreliable h (hs ▸ heval) (by simp)
  obtain ⟨-, hsame, -⟩ := eval_split [] _ hreliable _ s hs _ _ h₁ h₂
  obtain ⟨⟨ρ, hrenamed⟩, -⟩ := hsame t₁ t₂ t hfirst hsecond hboth
  exact ⟨s, t₁, t₂, t, ρ, hs, hfirst, hsecond, hboth, hrenamed, hblock₂, hblock⟩

end Session

end StackLang
