import StackLang.Proofs.Renaming

/-!
# Machines in lockstep

Two machines that are the same up to names and addresses take every instruction alike: they go on to
such machines, write the same text unless they write code, and fail with the same fault.

* `Op.written`, `Machine.written`: the values that an instruction writes.
* `Effect.Parallel`: effects that are the same up to names and addresses.
* `Op.run_parallel`: alike instructions have such effects on such machines.
-/

namespace StackLang

/-! ## What is written -/

/-- The values that running code writes. -/
def Machine.shown (m : Machine) : Code → List Value
  | .builtin i =>
    match Builtin.ofIndex? i with
    | some .print => m.stack.items.take 1
    | some .stack => m.stack.items
    | _ => []
  | _ => []

/-- The values that an instruction writes. -/
def Op.written (m : Machine) : Op → List Value
  | .call h => (m.words.find? h).toList.flatMap m.shown
  | .exec => (m.stack.items.take 1).flatMap fun v => v.code?.toList.flatMap (m.drop 1).shown
  | .loopCond => (m.loops.take 1).flatMap fun l => m.shown l.cond
  | .loopBody => (m.loops.take 1).flatMap fun l => m.shown l.body
  | _ => []

/-- The values that the next instruction writes. -/
def Machine.written (m : Machine) : List Value := m.fetch?.toList.flatMap (Op.written m)

/-- Values that look the same on both sides: they are no code, or no block has moved. -/
def Chart.Shows (χ : Chart) (vs : List Value) : Prop :=
  Fixes χ.starts ∨ ∀ v ∈ vs, v.code? = none

/-! ## Effects -/

/-- Faults that are the same; those for want of a call or a loop name the address where they
occurred. -/
inductive Fault.Alike (χ : Chart) : Fault → Fault → Prop
  | same (f : Fault) : Alike χ f f
  | noCall {a a' : Int} (h : χ.stands a a') : Alike χ (.noCall a) (.noCall a')
  | noLoop {a a' : Int} (h : χ.stands a a') : Alike χ (.noLoop a) (.noLoop a')

theorem Fault.Alike.eq_of_fixes {χ : Chart} {f f' : Fault} (h : Fault.Alike χ f f')
    (hχ : Fixes χ.stands) : f = f' := by
  cases h with
  | same f => rfl
  | noCall h => rw [hχ h]
  | noLoop h => rw [hχ h]

theorem Fault.Alike.eq_of_internal {χ : Chart} {f f' : Fault} (h : Fault.Alike χ f f')
    (hf : f.internal = false) : f = f' := by
  cases h with
  | same f => rfl
  | noCall h => cases hf
  | noLoop h => cases hf

/-- Effects that are the same up to names and addresses, if `vs` are the values written. -/
inductive Effect.Parallel (χ : Chart) (vs : List Value) : Effect → Effect → Prop
  | next {m m' : Machine} (h : m.Parallel χ m') : Parallel χ vs (.next m) (.next m')
  | emit {text text' : Bytes} {m m' : Machine} (h : m.Parallel χ m')
    (hadvance : m.advance.Parallel χ m'.advance) (htext : χ.Shows vs → text = text') :
    Parallel χ vs (.emit text m) (.emit text' m')
  | fault {f f' : Fault} {m m' : Machine} (hf : Fault.Alike χ f f') (h : m.Parallel χ m') :
    Parallel χ vs (.fault f m) (.fault f' m')

namespace Machine.Parallel

variable {χ : Chart} {m m' : Machine} {vs : List Value} (h : m.Parallel χ m')

include h

theorem underflow (word : String) (needed : Nat) :
    Effect.Parallel χ vs (m.underflow word needed) (m'.underflow word needed) := by
  rw [Machine.underflow, Machine.underflow, h.height]
  exact .fault (.same _) h

theorem mismatch (e : Mismatch) : Effect.Parallel χ vs (m.mismatch e) (m'.mismatch e) :=
  .fault (.same _) h

section

variable (hnext : χ.stands (m.pc + 1) (m'.pc + 1))

include hnext

theorem push {v v' : Value} (hv : Value.Alike χ.starts m.symbols m'.symbols v v') :
    Effect.Parallel χ vs (m.push v) (m'.push v') := by
  unfold Machine.push
  by_cases hfull : m.stack.full m.stackLimit
  · rw [if_pos hfull, if_pos (h.stack_full ▸ hfull), h.stackLimit]
    exact .fault (.same _) h
  · rw [if_neg hfull, if_neg (h.stack_full ▸ hfull)]
    exact .next (h.setStack (.cons hv h.stack) hnext)

theorem replace (n : Nat) {us us' : List Value}
    (hus : List.Forall₂ (Value.Alike χ.starts m.symbols m'.symbols) us us') :
    Effect.Parallel χ vs (m.replace n us) (m'.replace n us') :=
  .next (h.setStack (List.rel_append hus (List.forall₂_drop n h.stack)) hnext)

end

theorem integers (word : String) {f : Int64 → Int64 → Machine → Effect}
    (hf : ∀ a b, Effect.Parallel χ vs (f a b (m.drop 2)) (f a b (m'.drop 2))) :
    Effect.Parallel χ vs (m.popIntegers word f) (m'.popIntegers word f) := by
  unfold Machine.popIntegers
  obtain ⟨hi, hi'⟩ | ⟨b, b', rest, rest', hi, hi', hb, hrest⟩ := h.top
  · simpa only [hi, hi'] using h.underflow word 2
  · simp only [hi, hi']
    cases hrest with
    | nil => exact h.underflow word 2
    | cons ha hrest =>
      cases ha <;> cases hb
      case cons.int.int a b => exact hf a b
      all_goals exact h.mismatch _

/-- Code does the same on both sides. A block goes back to where the other one goes back to. -/
theorem dispatch (hinside : m.pc < m.program.ops.size) (hinside' : m'.pc < m'.program.ops.size)
    (hnext : χ.stands (m.pc + 1) (m'.pc + 1)) {c c' : Code} (hc : Code.Alike χ.starts c c') :
    Effect.Parallel χ (m.shown c) (m.dispatch c) (m'.dispatch c') := by
  cases hc with
  | block hstarts =>
    simp only [Machine.dispatch]
    by_cases hfull : m.calls.full m.callLimit
    · rw [if_pos hfull, if_pos (h.calls_full ▸ hfull), h.callLimit]
      exact .fault (.same _) h
    · rw [if_neg hfull, if_neg (h.calls_full ▸ hfull)]
      exact .next ⟨h.distinct, h.distinct', h.program, χ.stands_of_starts hstarts, h.stack,
        .cons ⟨hinside, hinside', hnext⟩ h.calls, h.loops, h.words, h.stackLimit, h.callLimit⟩
  | builtin i =>
    have hadvance := h.advance hnext
    simp only [Machine.dispatch, Machine.shown]
    cases Builtin.ofIndex? i with
    | none => exact h.mismatch _
    | some b =>
      cases b with
      | print =>
        obtain ⟨hi, hi'⟩ | ⟨v, v', rest, rest', hi, hi', hv, -⟩ := h.top
        · simpa only [hi, hi'] using h.underflow "print" 1
        · simp only [hi, hi']
          refine .emit h hadvance fun hshows => hv.format ?_ .raw
          exact hshows.imp_right fun hall => hall v List.mem_cons_self
      | nl => exact .emit h hadvance fun _ => rfl
      | stack => exact .emit h hadvance h.formatStack

/-- There is a loop on both sides, or on none. -/
theorem withLoop {f f' : Loop → List Loop → Effect}
    (hf : ∀ l l' loops loops', m.loops = l :: loops → m'.loops = l' :: loops' →
      Loop.Alike χ.starts l l' → List.Forall₂ (Loop.Alike χ.starts) loops loops' →
      Effect.Parallel χ vs (f l loops) (f' l' loops')) :
    Effect.Parallel χ vs (m.withLoop f) (m'.withLoop f') := by
  unfold Machine.withLoop
  have hloops := h.loops
  rcases hl : m.loops with _ | ⟨l, loops⟩ <;> rcases hl' : m'.loops with _ | ⟨l', loops'⟩ <;>
    rw [hl, hl'] at hloops
  · exact .fault (.noLoop h.pc) h
  · cases hloops
  · cases hloops
  · obtain ⟨hhead, htail⟩ := List.forall₂_cons.1 hloops
    exact hf l l' loops loops' hl hl' hhead htail

end Machine.Parallel

/-! ## Instructions -/

section

variable {χ : Chart} {m m' : Machine} {vs : List Value} (h : m.Parallel χ m')
  (hnext : χ.stands (m.pc + 1) (m'.pc + 1))

include h hnext

theorem Op.runAdd_parallel : Effect.Parallel χ vs (runAdd m) (runAdd m') := by
  unfold runAdd
  obtain ⟨hi, hi'⟩ | ⟨b, b', rest, rest', hi, hi', hb, hrest⟩ := h.top
  · simpa only [hi, hi'] using h.underflow "+" 2
  · simp only [hi, hi']
    cases hrest with
    | nil => exact h.underflow "+" 2
    | cons ha hrest =>
      cases ha <;> cases hb
      case cons.int.int a b => exact (h.drop 2).push hnext (.int (a + b))
      case cons.str.str ha _ _ hb =>
        simp only [← ha.joined hb]
        refine ((h.drop 2).intern _).push hnext (.str ?_)
        exact Registry.sameName_intern m.symbols m'.symbols _
      all_goals exact h.mismatch _

theorem Op.runDefine_parallel : Effect.Parallel χ vs (runDefine m) (runDefine m') := by
  unfold runDefine
  obtain ⟨hi, hi'⟩ | ⟨b, b', rest, rest', hi, hi', hb, hrest⟩ := h.top
  · simpa only [hi, hi'] using h.underflow "def" 2
  · simp only [hi, hi']
    cases hrest with
    | nil => exact h.underflow "def" 2
    | cons ha hrest =>
      cases ha <;> cases hb
      case cons.code.sym hc _ _ hw =>
        have hwords := Entry.define_alike h.distinct h.distinct' h.words hw hc
        exact .next ⟨h.distinct, h.distinct', h.program, hnext, (h.drop 2).stack, h.calls, h.loops,
          hwords, h.stackLimit, h.callLimit⟩
      all_goals exact h.mismatch _

theorem Op.runLoopEnter_parallel : Effect.Parallel χ vs (runLoopEnter m) (runLoopEnter m') := by
  unfold runLoopEnter
  obtain ⟨hi, hi'⟩ | ⟨b, b', rest, rest', hi, hi', hb, hrest⟩ := h.top
  · simpa only [hi, hi'] using h.underflow "while" 2
  · simp only [hi, hi']
    cases hrest with
    | nil => exact h.underflow "while" 2
    | cons ha hrest =>
      cases ha <;> cases hb
      case cons.code.code hcond _ _ hbody =>
        exact .next ⟨h.distinct, h.distinct', h.program, hnext, (h.drop 2).stack, h.calls,
          .cons ⟨hcond, hbody⟩ h.loops, h.words, h.stackLimit, h.callLimit⟩
      all_goals exact h.mismatch _

/-- Instructions that refer to nothing, and run no code. -/
theorem Op.plain_parallel {op : Op} (hop : op.isPlain) (hexec : op ≠ .exec) (hret : op ≠ .ret)
    (hcond : op ≠ .loopCond) (hbody : op ≠ .loopBody) :
    Effect.Parallel χ vs (op.run m) (op.run m') := by
  cases op with
  | push v | call w | loopExit t | jump t | other n => cases hop
  | ret => exact absurd rfl hret
  | exec => exact absurd rfl hexec
  | loopCond => exact absurd rfl hcond
  | loopBody => exact absurd rfl hbody
  | define => exact Op.runDefine_parallel h hnext
  | add => exact Op.runAdd_parallel h hnext
  | loopEnter => exact Op.runLoopEnter_parallel h hnext
  | arith f =>
    rw [Op.run, Op.run]
    exact h.integers f.word fun a b => (h.drop 2).push hnext (.int _)
  | div =>
    rw [Op.run, Op.run]
    refine h.integers "/" fun a b => ?_
    by_cases hzero : b = 0
    · rw [if_pos hzero, if_pos hzero]
      exact .fault (.same _) (h.drop 2)
    · rw [if_neg hzero, if_neg hzero]
      exact (h.drop 2).push hnext (.int _)
  | compare f =>
    rw [Op.run, Op.run]
    exact h.integers f.word fun a b => (h.drop 2).push hnext (.bool _)
  | eq =>
    simp only [Op.run]
    obtain ⟨hi, hi'⟩ | ⟨b, b', rest, rest', hi, hi', hb, hrest⟩ := h.top
    · simpa only [hi, hi'] using h.underflow "=" 2
    · simp only [hi, hi']
      cases hrest with
      | nil => exact h.underflow "=" 2
      | cons ha hrest =>
        have hiff := ha.eq_iff h.distinct h.distinct' χ.one_to_one hb
        simp only [hiff]
        exact (h.drop 2).push hnext (.bool _)
  | drop =>
    simp only [Op.run]
    obtain ⟨hi, hi'⟩ | ⟨v, v', rest, rest', hi, hi', hv, hrest⟩ := h.top
    · simpa only [hi, hi'] using h.underflow "." 1
    · simpa only [hi, hi'] using h.replace hnext 1 .nil
  | dup =>
    simp only [Op.run]
    obtain ⟨hi, hi'⟩ | ⟨v, v', rest, rest', hi, hi', hv, hrest⟩ := h.top
    · simpa only [hi, hi'] using h.underflow "dup" 1
    · simpa only [hi, hi'] using h.push hnext hv
  | swap =>
    simp only [Op.run]
    obtain ⟨hi, hi'⟩ | ⟨b, b', rest, rest', hi, hi', hb, hrest⟩ := h.top
    · simpa only [hi, hi'] using h.underflow "swap" 2
    · simp only [hi, hi']
      cases hrest with
      | nil => exact h.underflow "swap" 2
      | cons ha hrest => exact h.replace hnext 2 (.cons ha (.cons hb .nil))
  | rot =>
    simp only [Op.run]
    obtain ⟨hi, hi'⟩ | ⟨u, u', rest, rest', hi, hi', hu, hrest⟩ := h.top
    · simpa only [hi, hi'] using h.underflow "rot" 3
    · simp only [hi, hi']
      rcases hrest with _ | ⟨hb, _ | ⟨ha, hrest⟩⟩
      · exact h.underflow "rot" 3
      · exact h.underflow "rot" 3
      · exact h.replace hnext 3 (.cons ha (.cons hu (.cons hb .nil)))
  | unrot =>
    simp only [Op.run]
    obtain ⟨hi, hi'⟩ | ⟨u, u', rest, rest', hi, hi', hu, hrest⟩ := h.top
    · simpa only [hi, hi'] using h.underflow "-rot" 3
    · simp only [hi, hi']
      rcases hrest with _ | ⟨hb, _ | ⟨ha, hrest⟩⟩
      · exact h.underflow "-rot" 3
      · exact h.underflow "-rot" 3
      · exact h.replace hnext 3 (.cons hb (.cons ha (.cons hu .nil)))
  | not =>
    simp only [Op.run]
    obtain ⟨hi, hi'⟩ | ⟨v, v', rest, rest', hi, hi', hv, hrest⟩ := h.top
    · simpa only [hi, hi'] using h.underflow "not" 1
    · simp only [hi, hi', hv.truth]
      exact h.replace hnext 1 (.cons (.bool _) .nil)
  | connect f =>
    simp only [Op.run]
    obtain ⟨hi, hi'⟩ | ⟨b, b', rest, rest', hi, hi', hb, hrest⟩ := h.top
    · simpa only [hi, hi'] using h.underflow f.word 2
    · simp only [hi, hi']
      cases hrest with
      | nil => exact h.underflow f.word 2
      | cons ha hrest =>
        simp only [ha.truth, hb.truth]
        exact (h.drop 2).push hnext (.bool _)
  | select =>
    simp only [Op.run]
    obtain ⟨hi, hi'⟩ | ⟨u, u', rest, rest', hi, hi', hu, hrest⟩ := h.top
    · simpa only [hi, hi'] using h.underflow "if" 3
    · simp only [hi, hi']
      rcases hrest with _ | ⟨hb, _ | ⟨ha, hrest⟩⟩
      · exact h.underflow "if" 3
      · exact h.underflow "if" 3
      · refine h.replace hnext 3 (.cons ?_ .nil)
        rw [ha.truth]
        split
        · exact hb
        · exact hu

/-- A loop is left or gone on with on both sides. -/
theorem Op.loopExit_parallel {target target' : Int} (htarget : χ.stands target target') :
    Effect.Parallel χ vs ((loopExit target).run m) ((loopExit target').run m') := by
  refine h.withLoop fun l l' loops loops' _ _ _ hloops => ?_
  obtain ⟨hi, hi'⟩ | ⟨v, v', rest, rest', hi, hi', hv, hrest⟩ := h.top
  · simpa only [hi, hi'] using h.underflow "while" 1
  · simp only [hi, hi', hv.truth]
    split
    · exact h.replace hnext 1 .nil
    · exact .next ⟨h.distinct, h.distinct', h.program, htarget, (h.drop 1).stack, h.calls, hloops,
        h.words, h.stackLimit, h.callLimit⟩

end

section

variable {χ : Chart} {m m' : Machine} (h : m.Parallel χ m')

include h

/-- The address behind a call is the same on both sides. -/
theorem Op.ret_parallel {vs : List Value} :
    Effect.Parallel χ vs (ret.run m) (ret.run m') := by
  simp only [Op.run]
  have hcalls := h.calls
  rcases hi : m.calls.items with _ | ⟨a, rest⟩ <;> rcases hi' : m'.calls.items with _ | ⟨a', rest'⟩ <;>
    rw [hi, hi'] at hcalls
  · exact .fault (.noCall h.pc) h
  · cases hcalls
  · cases hcalls
  · obtain ⟨hreturns, hrest⟩ := List.forall₂_cons.1 hcalls
    have hbehind : m.behind a = a + 1 := by
      rw [Machine.behind, if_neg]
      have := hreturns.inside
      omega
    have hbehind' : m'.behind a' = a' + 1 := by
      rw [Machine.behind, if_neg]
      have := hreturns.inside'
      omega
    refine .next ⟨h.distinct, h.distinct', h.program, ?_, h.stack, ?_, h.loops, h.words,
      h.stackLimit, h.callLimit⟩
    · simp only [hbehind, hbehind']
      exact hreturns.stands
    · simpa [hi, hi'] using hrest

theorem Op.runExec_parallel (hinside : m.pc < m.program.ops.size)
    (hinside' : m'.pc < m'.program.ops.size) (hnext : χ.stands (m.pc + 1) (m'.pc + 1)) :
    Effect.Parallel χ (exec.written m) (runExec m) (runExec m') := by
  unfold runExec Op.written
  obtain ⟨hi, hi'⟩ | ⟨v, v', rest, rest', hi, hi', hv, hrest⟩ := h.top
  · simpa only [hi, hi'] using h.underflow "exec" 1
  · simp only [hi, hi']
    cases hv with
    | code hc => simpa [Value.code?] using (h.drop 1).dispatch hinside hinside' hnext hc
    | bool b => exact h.mismatch _
    | int n => exact h.mismatch _
    | sym hname => exact h.mismatch _
    | str hname => exact h.mismatch _

/-- Alike instructions have the same effect. -/
theorem Op.run_parallel {op op' : Op} (hop : Op.Alike χ m.symbols m'.symbols op op')
    (hinside : m.pc < m.program.ops.size) (hinside' : m'.pc < m'.program.ops.size)
    (hnext : op ≠ .ret → χ.stands (m.pc + 1) (m'.pc + 1)) :
    Effect.Parallel χ (op.written m) (op.run m) (op'.run m') := by
  cases hop with
  | push hv => exact h.push (hnext (by simp)) hv
  | call hname =>
    have hfound := Entry.lookup_alike h.distinct h.distinct' h.words hname
    simp only [Op.run, Op.written, Dictionary.find?]
    generalize m.words.entries.lookup _ = found at hfound ⊢
    generalize m'.words.entries.lookup _ = found' at hfound ⊢
    cases hfound with
    | none =>
      rw [hname.text]
      exact .fault (.same _) h
    | some hc => simpa using h.dispatch hinside hinside' (hnext (by simp)) hc
  | loopExit htarget => exact Op.loopExit_parallel h (hnext (by simp)) htarget
  | jump htarget => exact .next (h.setStack h.stack htarget)
  | @plain op hplain =>
    by_cases hret : op = .ret
    · subst hret
      exact Op.ret_parallel h
    have hnext' := hnext hret
    by_cases hexec : op = .exec
    · subst hexec
      exact Op.runExec_parallel h hinside hinside' hnext'
    by_cases hcond : op = .loopCond
    · subst hcond
      refine h.withLoop fun l l' loops loops' hloops _ hl _ => ?_
      simpa [Op.written, hloops] using h.dispatch hinside hinside' hnext' hl.cond
    by_cases hbody : op = .loopBody
    · subst hbody
      refine h.withLoop fun l l' loops loops' hloops _ hl _ => ?_
      simpa [Op.written, hloops] using h.dispatch hinside hinside' hnext' hl.body
    exact Op.plain_parallel h hnext' hplain hexec hret hcond hbody

/-- Machines in parallel fetch alike instructions, and these have the same effect. -/
theorem Machine.Parallel.fetch {op : Op} (hfetch : m.fetch? = some op) :
    ∃ op', m'.fetch? = some op' ∧ Op.Alike χ m.symbols m'.symbols op op' ∧
      Effect.Parallel χ m.written (op.run m) (op'.run m') := by
  rw [Machine.fetch?_eq] at hfetch
  obtain ⟨op', hfetch', hop⟩ := h.program.op h.pc hfetch
  refine ⟨op', hfetch', hop, ?_⟩
  have hrun := Op.run_parallel h hop (lt_of_fetchAt hfetch) (lt_of_fetchAt hfetch')
    (h.program.next h.pc hfetch)
  rw [← Machine.fetch?_eq] at hfetch
  simpa [Machine.written, hfetch] using hrun

end

end StackLang
