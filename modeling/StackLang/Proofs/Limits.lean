import StackLang.Proofs.Effects

/-!
# Limits on the stacks

An instruction looks at a limit only in its last act: when it pushes its result, or the address it
calls from. Whatever it does before that lowers the stacks at most. So an instruction has the same
effect with any limits, unless one of the stacks is full when the push is due.

* `Machine.Intends`: what an instruction does on machines that differ in their limits only.
* `Op.run_intends`: every instruction is of this form.
* `Machine.Intends.run_fits`: stacks stay within the limits of their machine.
* `Machine.Intends.curbs`: what limits make of the effect that an instruction has without.
-/

namespace StackLang

theorem Stack.height_replace {α : Type} (s : Stack α) (n : Nat) (items : List α) :
    (s.replace n items).height = items.length + (s.height - n) := rfl

theorem Stack.height_push {α : Type} (s : Stack α) (a : α) : (s.push a).height = s.height + 1 :=
  Nat.add_comm 1 s.height

theorem Stack.height_drop_le {α : Type} (s : Stack α) (n : Nat) : (s.drop n).height ≤ s.height := by
  rw [Stack.drop, Stack.height_replace, List.length_nil]
  omega

/-- A stack that is not full has room for one more, and one that is full has reached its limit. -/
theorem Stack.full_iff {α : Type} {s : Stack α} {limit : Int} :
    s.full limit = true ↔ limit ≠ 0 ∧ limit ≤ s.height := by
  simp [Stack.full]

namespace Effect

/-- The effect with all machines changed. -/
def map (f : Machine → Machine) : Effect → Effect
  | next m => next (f m)
  | emit text m => emit text (f m)
  | fault e m => fault e (f m)
  | stuck => stuck

theorem Ensures.imp {P Q : Machine → Prop} {e : Effect} (h : e.Ensures P)
    (hPQ : ∀ m, P m → Q m) : e.Ensures Q := by
  cases e with
  | next m => exact hPQ m h
  | emit text m => exact hPQ m h
  | fault e m => exact hPQ m h
  | stuck => trivial

theorem Ensures.and {P Q : Machine → Prop} {e : Effect} (hP : e.Ensures P) (hQ : e.Ensures Q) :
    e.Ensures fun m => P m ∧ Q m := by
  cases e with
  | stuck => trivial
  | _ => exact ⟨hP, hQ⟩

theorem ensures_map {P : Machine → Prop} {f : Machine → Machine} {e : Effect} :
    (e.map f).Ensures P ↔ e.Ensures fun m => P (f m) := by
  cases e <;> rfl

end Effect

namespace Machine

/-- The machine with other limits. -/
def limit (m : Machine) (stackLimit callLimit : Int) : Machine := { m with stackLimit, callLimit }

/-- The stacks of `m'` are no higher than those of `m`. -/
structure Lowers (m m' : Machine) : Prop where
  stack : m'.stack.height ≤ m.stack.height
  calls : m'.calls.height ≤ m.calls.height

theorem Lowers.refl (m : Machine) : m.Lowers m := ⟨Nat.le_refl _, Nat.le_refl _⟩

theorem lowers_drop (m : Machine) (n : Nat) : m.Lowers (m.drop n) :=
  ⟨m.stack.height_drop_le n, Nat.le_refl _⟩

section

variable (m : Machine) (a b : Int)

@[simp] theorem limit_symbols : (m.limit a b).symbols = m.symbols := rfl

@[simp] theorem limit_program : (m.limit a b).program = m.program := rfl

@[simp] theorem limit_stack : (m.limit a b).stack = m.stack := rfl

@[simp] theorem limit_calls : (m.limit a b).calls = m.calls := rfl

@[simp] theorem limit_loops : (m.limit a b).loops = m.loops := rfl

@[simp] theorem limit_words : (m.limit a b).words = m.words := rfl

end

/-- What is done to the machine `m`, whatever its limits are: it ends without a look at them, or
with a push of a value or a call that they may forbid. -/
inductive Intends (m : Machine) (run : Machine → Effect) : Prop
  | ends {e : Effect} (h : e.Ensures m.Lowers)
    (hrun : ∀ a b, run (m.limit a b) = e.map fun m' => m'.limit a b)
  | pushes {m' : Machine} {v : Value} (h : m.Lowers m')
    (hrun : ∀ a b, run (m.limit a b) = (m'.limit a b).push v)
  | calls {m' : Machine} {start : Int} (h : m.Lowers m')
    (hrun : ∀ a b, run (m.limit a b) = (m'.limit a b).dispatch (.block start))

/-! ## Parts of instructions -/

section

variable {m : Machine} {run : Machine → Effect}

theorem Intends.of_eq {run' : Machine → Effect} (h : m.Intends run')
    (heq : ∀ a b, run (m.limit a b) = run' (m.limit a b)) : m.Intends run := by
  cases h with
  | ends h hrun => exact .ends h fun a b => (heq a b).trans (hrun a b)
  | pushes h hrun => exact .pushes h fun a b => (heq a b).trans (hrun a b)
  | calls h hrun => exact .calls h fun a b => (heq a b).trans (hrun a b)

/-- A fault that leaves the machine as it is. -/
theorem Intends.fails {f : Fault} (hrun : ∀ a b, run (m.limit a b) = .fault f (m.limit a b)) :
    m.Intends run :=
  .ends (e := .fault f m) (.refl m) hrun

theorem Intends.underflows (word : String) (needed : Nat)
    (hrun : ∀ a b, run (m.limit a b) = (m.limit a b).underflow word needed) : m.Intends run :=
  .fails (f := .underflow word needed m.stack.height) hrun

/-- A result in place of operands. -/
theorem Intends.results {n : Nat} {v : Value}
    (hrun : ∀ a b, run (m.limit a b) = ((m.limit a b).drop n).push v) : m.Intends run :=
  .pushes (m.lowers_drop n) hrun

/-- Values in place of at least as many others. -/
theorem Intends.replaces {n : Nat} {vs : List Value} (hvs : vs.length ≤ n)
    (hn : n ≤ m.stack.items.length)
    (hrun : ∀ a b, run (m.limit a b) = (m.limit a b).replace n vs) : m.Intends run := by
  refine .ends (e := m.replace n vs) ⟨?_, Nat.le_refl _⟩ hrun
  have hheight := m.stack.height_eq
  rw [Stack.height_replace]
  omega

/-- A builtin has no use for limits. -/
theorem dispatch_builtin_limit (m : Machine) (i a b : Int) :
    (m.limit a b).dispatch (.builtin i) =
      (m.dispatch (.builtin i)).map fun m' => m'.limit a b := by
  simp only [dispatch, limit_stack]
  cases Builtin.ofIndex? i with
  | none => rfl
  | some builtin =>
    cases builtin with
    | print => cases m.stack.items <;> rfl
    | nl => rfl
    | stack => rfl

theorem Intends.dispatches {m' : Machine} (h : m.Lowers m') (c : Code)
    (hrun : ∀ a b, run (m.limit a b) = (m'.limit a b).dispatch c) : m.Intends run := by
  cases c with
  | block start => exact .calls h hrun
  | builtin i =>
    refine .ends (dispatch_builtin_ensures h i) ?_
    intro a b
    rw [hrun, dispatch_builtin_limit]
  | other tag address => exact .ends (e := m'.mismatch (.invalidCode (.other tag address))) h hrun

theorem takes_one (word : String) {f : Machine → Value → Effect}
    (hf : ∀ v, 1 ≤ m.stack.items.length → m.Intends fun m => f m v) :
    m.Intends fun m =>
      match m.stack.items with
      | v :: _ => f m v
      | [] => m.underflow word 1 := by
  rcases hitems : m.stack.items with _ | ⟨v, rest⟩
  case cons =>
    refine (hf v (by simp [hitems])).of_eq ?_
    intro a b
    simp only [limit_stack, hitems]
  case nil =>
    refine .underflows word 1 ?_
    intro a b
    simp only [limit_stack, hitems]

theorem takes_two (word : String) {f : Machine → Value → Value → Effect}
    (hf : ∀ u v, 2 ≤ m.stack.items.length → m.Intends fun m => f m u v) :
    m.Intends fun m =>
      match m.stack.items with
      | v :: u :: _ => f m u v
      | _ => m.underflow word 2 := by
  rcases hitems : m.stack.items with _ | ⟨v, _ | ⟨u, rest⟩⟩
  case cons.cons =>
    refine (hf u v (by simp [hitems])).of_eq ?_
    intro a b
    simp only [limit_stack, hitems]
  all_goals
    refine .underflows word 2 ?_
    intro a b
    simp only [limit_stack, hitems]

theorem takes_three (word : String) {f : Machine → Value → Value → Value → Effect}
    (hf : ∀ u v w, 3 ≤ m.stack.items.length → m.Intends fun m => f m u v w) :
    m.Intends fun m =>
      match m.stack.items with
      | w :: v :: u :: _ => f m u v w
      | _ => m.underflow word 3 := by
  rcases hitems : m.stack.items with _ | ⟨w, _ | ⟨v, _ | ⟨u, rest⟩⟩⟩
  case cons.cons.cons =>
    refine (hf u v w (by simp [hitems])).of_eq ?_
    intro a b
    simp only [limit_stack, hitems]
  all_goals
    refine .underflows word 3 ?_
    intro a b
    simp only [limit_stack, hitems]

theorem popIntegers_intends (word : String) {f : Int64 → Int64 → Machine → Effect}
    (hf : ∀ x y, m.Intends fun m => f x y (m.drop 2)) :
    m.Intends fun m => m.popIntegers word f := by
  refine takes_two word fun u v _ => ?_
  cases u <;> cases v
  case int.int x y => exact hf x y
  all_goals exact .fails fun _ _ => rfl

theorem withLoop_intends {f : Machine → Loop → List Loop → Effect}
    (hf : ∀ l loops, m.Intends fun m => f m l loops) :
    m.Intends fun m => m.withLoop (f m) := by
  cases hloops : m.loops with
  | nil =>
    refine .fails (f := .noLoop m.pc) ?_
    intro a b
    simp only [withLoop, limit_loops, hloops]
    rfl
  | cons l loops =>
    refine (hf l loops).of_eq ?_
    intro a b
    simp only [withLoop, limit_loops, hloops]

end

end Machine

/-! ## Instructions -/

namespace Op

open Machine

theorem runAdd_intends (m : Machine) : m.Intends runAdd := by
  refine takes_two "+" fun u v _ => ?_
  cases u <;> cases v
  case int.int x y => exact .results fun _ _ => rfl
  case str.str x y =>
    let grown := m.symbols.intern (m.symbols.joined x y)
    have hlowers : m.Lowers { m.drop 2 with symbols := grown.1 } :=
      ⟨(m.lowers_drop 2).stack, Nat.le_refl _⟩
    exact .pushes (v := .str grown.2) hlowers fun _ _ => rfl
  all_goals exact .fails fun _ _ => rfl

theorem runDefine_intends (m : Machine) : m.Intends runDefine := by
  refine takes_two "def" fun u v _ => ?_
  cases u <;> cases v
  case code.sym c h =>
    exact .ends (e := .next { m.drop 2 with words := m.words.define h c, pc := m.pc + 1 })
      ⟨(m.lowers_drop 2).stack, Nat.le_refl _⟩ fun _ _ => rfl
  all_goals exact .fails fun _ _ => rfl

theorem runLoopEnter_intends (m : Machine) : m.Intends runLoopEnter := by
  refine takes_two "while" fun u v _ => ?_
  cases u <;> cases v
  case code.code c c' =>
    exact .ends (e := .next { m.drop 2 with loops := ⟨c, c'⟩ :: m.loops, pc := m.pc + 1 })
      ⟨(m.lowers_drop 2).stack, Nat.le_refl _⟩ fun _ _ => rfl
  all_goals exact .fails fun _ _ => rfl

theorem runExec_intends (m : Machine) : m.Intends runExec := by
  refine takes_one "exec" fun v _ => ?_
  cases v
  case code c => exact .dispatches (m.lowers_drop 1) c fun _ _ => rfl
  all_goals exact .fails fun _ _ => rfl

/-- No instruction looks at a limit but in its last act. -/
theorem run_intends (m : Machine) (op : Op) : m.Intends fun m => op.run m := by
  cases op with
  | push v => exact .pushes (.refl m) fun _ _ => rfl
  | call h =>
    cases hfind : m.words.find? h with
    | none =>
      refine .fails (f := .unimplemented (m.symbols.text h)) ?_
      intro a b
      simp only [Op.run, limit_words, limit_symbols, hfind]
    | some c =>
      refine .dispatches (.refl m) c ?_
      intro a b
      simp only [Op.run, limit_words, hfind]
  | ret =>
    cases hcalls : m.calls.items with
    | nil =>
      refine .fails (f := .noCall m.pc) ?_
      intro a b
      simp only [Op.run, limit_calls, hcalls]
      rfl
    | cons address rest =>
      refine .ends (e := .next { m with calls := m.calls.drop 1, pc := m.behind address })
        ⟨Nat.le_refl _, m.calls.height_drop_le 1⟩ ?_
      intro a b
      simp only [Op.run, limit_calls, hcalls]
      rfl
  | define => exact runDefine_intends m
  | add => exact runAdd_intends m
  | arith f =>
    simp only [Op.run]
    exact popIntegers_intends f.word fun x y => .results fun _ _ => rfl
  | compare f =>
    simp only [Op.run]
    exact popIntegers_intends f.word fun x y => .results fun _ _ => rfl
  | div =>
    simp only [Op.run]
    refine popIntegers_intends "/" fun x y => ?_
    by_cases hy : y = 0
    · simp only [if_pos hy]
      exact .ends (e := .fault (.divideByZero x) (m.drop 2)) (m.lowers_drop 2) fun _ _ => rfl
    · simp only [if_neg hy]
      exact .results fun _ _ => rfl
  | exec => exact runExec_intends m
  | loopEnter => exact runLoopEnter_intends m
  | loopCond => exact withLoop_intends fun l _ => .dispatches (.refl m) l.cond fun _ _ => rfl
  | loopBody => exact withLoop_intends fun l _ => .dispatches (.refl m) l.body fun _ _ => rfl
  | loopExit target =>
    refine withLoop_intends fun l loops => takes_one "while" fun v hv => ?_
    cases v.truth with
    | true => exact .replaces (Nat.zero_le 1) hv fun _ _ => rfl
    | false =>
      exact .ends (e := .next { m.drop 1 with loops := loops, pc := target })
        ⟨(m.lowers_drop 1).stack, Nat.le_refl _⟩ fun _ _ => rfl
  | jump target =>
    exact .ends (e := .next { m with pc := target }) ⟨Nat.le_refl _, Nat.le_refl _⟩ fun _ _ => rfl
  | other code => exact .ends (e := .stuck) trivial fun _ _ => rfl
  | dup => exact takes_one "dup" fun v _ => .pushes (.refl m) fun _ _ => rfl
  | eq => exact takes_two "=" fun u v _ => .results fun _ _ => rfl
  | connect f => exact takes_two f.word fun u v _ => .results fun _ _ => rfl
  | drop => exact takes_one "." fun v hv => .replaces (Nat.zero_le 1) hv fun _ _ => rfl
  | not => exact takes_one "not" fun v hv => .replaces (Nat.le_refl 1) hv fun _ _ => rfl
  | swap => exact takes_two "swap" fun u v huv => .replaces (Nat.le_refl 2) huv fun _ _ => rfl
  | rot => exact takes_three "rot" fun u v w h => .replaces (Nat.le_refl 3) h fun _ _ => rfl
  | unrot => exact takes_three "-rot" fun u v w h => .replaces (Nat.le_refl 3) h fun _ _ => rfl
  | select =>
    exact takes_three "if" fun u v w h => .replaces (Nat.le_add_right 1 2) h fun _ _ => rfl

end Op

/-! ## Keeping within limits -/

/-- The stacks are no higher than these limits; a limit of 0 is none. -/
def Machine.fits (L c : Int) (m : Machine) : Bool :=
  (0 < L → m.stack.height ≤ L) ∧ (0 < c → m.calls.height ≤ c)

/-- A stack is higher than its limit, and `f` is the fault that says so. -/
inductive Machine.Exceeds (L c : Int) (m : Machine) : Fault → Prop
  | values (hL : 0 < L) (h : L < m.stack.height) : m.Exceeds L c (.stackOverflow L)
  | calls (hc : 0 < c) (h : c < m.calls.height) : m.Exceeds L c (.callOverflow c)

/-- What limits make of the effect that an instruction has without: the same, or a fault in place of
a push that takes a stack over its limit. But for the stacks, the machine is then the same. -/
inductive Effect.Curbs (L c : Int) : Effect → Effect → Prop
  | same {e : Effect} (h : e.Ensures fun m => m.fits L c) :
    Curbs L c e (e.map fun m => m.limit L c)
  | exceeds {m m' : Machine} {f : Fault} (h : m.Exceeds L c f)
    (hreset : m'.reset = (m.limit L c).reset) : Curbs L c (.next m) (.fault f m')

namespace Machine

variable {m m' : Machine} {L c : Int} {run : Machine → Effect}

theorem fits_iff :
    m.fits L c = true ↔ (0 < L → m.stack.height ≤ L) ∧ (0 < c → m.calls.height ≤ c) :=
  decide_eq_true_iff

theorem Exceeds.not_fits {f : Fault} (h : m.Exceeds L c f) : m.fits L c = false := by
  rw [← Bool.not_eq_true, fits_iff]
  cases h with
  | values hL h => omega
  | calls hc h => omega

theorem Lowers.fits (h : m.Lowers m') (hm : m.fits L c) : m'.fits L c := by
  rw [fits_iff] at hm ⊢
  have hstack := h.stack
  have hcalls := h.calls
  omega

theorem push_limit (m : Machine) (v : Value) (a b : Int) :
    (m.limit a b).push v =
      if m.stack.full a then .fault (.stackOverflow a) (m.limit a b)
      else .next { m.limit a b with stack := m.stack.push v, pc := m.pc + 1 } :=
  rfl

theorem call_limit (m : Machine) (start a b : Int) :
    (m.limit a b).dispatch (.block start) =
      if m.calls.full b then .fault (.callOverflow b) (m.limit a b)
      else .next { m.limit a b with calls := m.calls.push m.pc, pc := start } :=
  rfl

/-- Who pushes only on a stack that is not full, keeps within the limits. -/
theorem Intends.run_fits (h : m.Intends run) (hm : m.fits L c) :
    (run (m.limit L c)).Ensures fun m' => m'.fits L c := by
  cases h with
  | ends h hrun =>
    rw [hrun, Effect.ensures_map]
    exact h.imp fun m' hm' => hm'.fits hm
  | @pushes m' v h hrun =>
    have hm' := h.fits hm
    rw [hrun, push_limit]
    split
    · exact hm'
    · rename_i hfull
      rw [Stack.full_iff] at hfull
      rw [fits_iff] at hm'
      refine fits_iff.2 ⟨fun hL => ?_, hm'.2⟩
      rw [Stack.height_push]
      omega
  | @calls m' start h hrun =>
    have hm' := h.fits hm
    rw [hrun, call_limit]
    split
    · exact hm'
    · rename_i hfull
      rw [Stack.full_iff] at hfull
      rw [fits_iff] at hm'
      refine fits_iff.2 ⟨hm'.1, fun hc => ?_⟩
      rw [Stack.height_push]
      omega

/-- Limits replace a push that they forbid by a fault, and change nothing else. -/
theorem Intends.curbs (h : m.Intends run) (hL : 0 ≤ L) (hc : 0 ≤ c) (hm : m.fits L c) :
    Effect.Curbs L c (run (m.limit 0 0)) (run (m.limit L c)) := by
  have hfits := h.run_fits hm
  cases h with
  | @ends e h hrun =>
    rw [hrun] at hfits ⊢
    rw [hrun]
    have hsame := Effect.Curbs.same (L := L) (c := c) (e := e.map fun m' => m'.limit 0 0)
      (Effect.ensures_map.2 (Effect.ensures_map.1 hfits))
    cases e <;> exact hsame
  | @pushes m' v h hrun =>
    have hroom : m'.stack.full 0 = false := rfl
    rw [hrun, push_limit] at hfits ⊢
    rw [hrun, push_limit, hroom]
    cases hfull : m'.stack.full L with
    | true =>
      obtain ⟨hne, hle⟩ := Stack.full_iff.1 hfull
      refine .exceeds (.values (by omega) ?_) rfl
      rw [Stack.height_push]
      omega
    | false =>
      rw [hfull] at hfits
      exact .same (e := .next _) hfits
  | @calls m' start h hrun =>
    have hroom : m'.calls.full 0 = false := rfl
    rw [hrun, call_limit] at hfits ⊢
    rw [hrun, call_limit, hroom]
    cases hfull : m'.calls.full c with
    | true =>
      obtain ⟨hne, hle⟩ := Stack.full_iff.1 hfull
      refine .exceeds (.calls (by omega) ?_) rfl
      rw [Stack.height_push]
      omega
    | false =>
      rw [hfull] at hfits
      exact .same (e := .next _) hfits

end Machine

end StackLang
