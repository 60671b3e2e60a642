import StackLang.Proofs.Representation

/-!
# Control

Where a machine can stand, and what its pending calls and running loops then are. An activation is a
stretch of code that is under way: the top-level code, or a block that was called. It stands at the
start of an item, or within the code of a loop; only in the second case one of the running loops is
its own.

* `Standing r T ops stop p looping`: an activation whose code ends at `stop` can stand at `p`.
* `Pending`: the calls and loops below an activation, down to a given one.
* `Governed`: the invariant of a machine that runs code of a tree.
* `Governed.step`: every instruction keeps the invariant, and none fails for want of a call or a
  loop.
-/

namespace StackLang

/-- Every machine that an effect leads to has a property, and the effect is no internal fault. -/
def Effect.Leads (P : Machine → Prop) : Effect → Prop
  | .next m => P m
  | .emit _ m => P m ∧ P m.advance
  | .fault f m => f.internal = false ∧ P m
  | .stuck => False

/-- One instruction leads from `m` to another machine, and has a text written. -/
inductive Machine.Goes (m : Machine) : Bytes → Machine → Prop
  | next {m' : Machine} (h : m.step = .next m') : m.Goes [] m'
  | emit {text : Bytes} {m' : Machine} (h : m.step = .emit text m') :
    m.Goes (Terminal.encode text) m'.advance

theorem Machine.step_of_fetch {m : Machine} {p : Nat} {op : Op} (hpc : m.pc = p)
    (hop : m.program.ops[p]? = some op) : m.step = op.run m := by
  have hfetch : m.fetch? = some op := by
    rw [Machine.fetch?, hpc]
    exact hop
  rw [Machine.step, hfetch]

end StackLang

namespace StackLang.Tree

/-! ## Programs -/

/-- The program has the instructions `code` from `p` on. -/
def Holds (ops : Array Op) (p : Nat) (code : List Op) : Prop :=
  ∀ ⦃i op⦄, code[i]? = some op → ops[p + i]? = some op

theorem Holds.left {ops : Array Op} {p : Nat} {code rest : List Op}
    (h : Holds ops p (code ++ rest)) : Holds ops p code := by
  intro i op hi
  refine h ?_
  rwa [List.getElem?_append_left (List.getElem?_eq_some_iff.1 hi).1]

theorem Holds.right {ops : Array Op} {p : Nat} {code rest : List Op}
    (h : Holds ops p (code ++ rest)) : Holds ops (p + code.length) rest := by
  intro i op hi
  rw [Nat.add_assoc]
  refine h ?_
  rwa [List.getElem?_append_right (Nat.le_add_right _ _), Nat.add_sub_cancel_left]

theorem Holds.head {ops : Array Op} {p : Nat} {op : Op} {rest : List Op}
    (h : Holds ops p (op :: rest)) : ops[p]? = some op :=
  h (i := 0) rfl

theorem Holds.tail {ops : Array Op} {p : Nat} {op : Op} {rest : List Op}
    (h : Holds ops p (op :: rest)) : Holds ops (p + 1) rest :=
  @Holds.right ops p [op] rest h

/-- Instructions that can run, and refer only to blocks of the table. -/
def Known (T : Table) (op : Op) : Prop :=
  (∀ c, op ≠ .other c) ∧ ∀ c, op = .push (.code c) → ∃ k, Refers T c k

/-- The blocks of the table are in the program, each with a `ret` behind it. -/
structure Linked (r : Registry) (T : Table) (ops : Array Op) : Prop where
  ordered : Ordered T
  placed : ∀ b ∈ T, ∃ code, Assembled r T b.start b.body code ∧ Holds ops b.start (code ++ [.ret])
  known : ∀ op ∈ ops, Known T op

/-! ## Positions -/

/-- An activation whose code ends at `stop` can stand at `p`, within a loop of its own or not. -/
inductive Standing (r : Registry) (T : Table) (ops : Array Op) (stop : Nat) : Nat → Bool → Prop
  | items {p : Nat} {items : List Item} {code : List Op} (h : Assembled r T p items code)
    (hops : Holds ops p code) (hstop : p + code.length = stop) : Standing r T ops stop p false
  | loop {p : Nat} (j : Fin 4) (hops : Holds ops p (Draft.loopCode p))
    (hrest : Standing r T ops stop (p + 5) false) : Standing r T ops stop (p + 1 + j) true

/-- The instruction at the position `p` of an activation, and where the activation goes on. -/
inductive Site (r : Registry) (T : Table) (ops : Array Op) (stop p : Nat) : Bool → Op → Prop
  | push {v : Value} {x : Datum} (hv : Denotes r T v x)
    (hnext : Standing r T ops stop (p + 1) false) : Site r T ops stop p false (.push v)
  | primitive (q : Primitive) (hnext : Standing r T ops stop (p + 1) false) :
    Site r T ops stop p false q.op
  | select (hnext : Standing r T ops stop (p + 1) false) : Site r T ops stop p false .select
  | exec (hnext : Standing r T ops stop (p + 1) false) : Site r T ops stop p false .exec
  | call {h : Handle} {word : Bytes} (hname : r.name? h = some (.ofWord word))
    (hnext : Standing r T ops stop (p + 1) false) : Site r T ops stop p false (.call h)
  | loopEnter (hnext : Standing r T ops stop (p + 1) true) : Site r T ops stop p false .loopEnter
  | loopCond (hnext : Standing r T ops stop (p + 1) true) : Site r T ops stop p true .loopCond
  | loopExit {target : Nat} (hnext : Standing r T ops stop (p + 1) true)
    (hexit : Standing r T ops stop target false) : Site r T ops stop p true (.loopExit target)
  | loopBody (hnext : Standing r T ops stop (p + 1) true) : Site r T ops stop p true .loopBody
  | jump {target : Nat} (hjump : Standing r T ops stop target true) :
    Site r T ops stop p true (.jump target)

section

variable {r : Registry} {T : Table} {ops : Array Op} {stop p : Nat} {looping : Bool}

theorem Standing.le (h : Standing r T ops stop p looping) : p ≤ stop := by
  induction h with
  | items h hops hstop => omega
  | loop j hops hrest ih => omega

/-- The code of an item, and then the rest of the activation. -/
theorem Standing.next {items : List Item} {code rest : List Op}
    (h : Assembled r T (p + code.length) items rest) (hops : Holds ops p (code ++ rest))
    (hstop : p + (code ++ rest).length = stop) :
    Standing r T ops stop (p + code.length) false := by
  refine .items h hops.right ?_
  rw [List.length_append] at hstop
  omega

theorem Standing.site (h : Standing r T ops stop p looping) :
    (p = stop ∧ looping = false) ∨ ∃ op, ops[p]? = some op ∧ Site r T ops stop p looping op := by
  cases h with
  | items h hops hstop =>
    cases h with
    | nil => exact Or.inl ⟨by simpa using hstop, rfl⟩
    | @cons _ item items code rest hitem hrest =>
      refine Or.inr ?_
      have hnext := Standing.next hrest hops hstop
      cases hitem with
      | constant h => exact ⟨_, hops.head, .push (.constant h) hnext⟩
      | primitive q => exact ⟨_, hops.head, .primitive q hnext⟩
      | exec => exact ⟨_, hops.head, .exec hnext⟩
      | choose =>
        -- Between its two instructions, the item is what is left of it: an `exec`.
        refine ⟨_, hops.head, .select (.items (.cons .exec hrest) hops.tail ?_)⟩
        rw [← hstop]
        simp
        omega
      | loop => exact ⟨_, hops.head, .loopEnter (.loop 0 hops.left hnext)⟩
      | call hname => exact ⟨_, hops.head, .call hname hnext⟩
      | block h => exact ⟨_, hops.head, .push (.code (.block h)) hnext⟩
  | @loop p j hops hrest =>
    refine Or.inr ?_
    match j with
    | 0 => exact ⟨_, hops (i := 1) rfl, .loopCond (.loop 1 hops hrest)⟩
    | 1 => exact ⟨_, hops (i := 2) rfl, .loopExit (.loop 2 hops hrest) hrest⟩
    | 2 => exact ⟨_, hops (i := 3) rfl, .loopBody (.loop 3 hops hrest)⟩
    | 3 => exact ⟨_, hops (i := 4) rfl, .jump (.loop 0 hops hrest)⟩

end

theorem Site.op_ne_ret {r : Registry} {T : Table} {ops : Array Op} {stop p : Nat} {looping : Bool}
    {op : Op} (h : Site r T ops stop p looping op) : op ≠ .ret := by
  cases h with
  | primitive q => cases q <;> simp [Primitive.op]
  | _ => simp

/-! ## Activations -/

/-- What is pending below an activation whose code ends at `stop`: calls from other activations, and
the loops of these, down to an activation that ends at `stop₀` and has the calls `R` and the loops
`L` below it. -/
inductive Pending (r : Registry) (T : Table) (ops : Array Op) (stop₀ : Nat) (R : List Int)
    (L : List Loop) : Nat → List Int → List Loop → Prop
  | base : Pending r T ops stop₀ R L stop₀ R L
  | call {stop below a : Nat} {looping : Bool} {own : List Loop} {calls : List Int}
    {loops : List Loop} (hret : ops[stop]? = some .ret)
    (hstanding : Standing r T ops below (a + 1) looping) (hown : own.length = looping.toNat)
    (hpending : Pending r T ops stop₀ R L below calls loops) :
    Pending r T ops stop₀ R L stop (a :: calls) (own ++ loops)

section

variable {r : Registry} {T : Table} {ops : Array Op} {stop₀ stop : Nat} {R calls : List Int}
  {L loops : List Loop}

theorem Pending.le (h : Pending r T ops stop₀ R L stop calls loops) (hle : stop₀ ≤ ops.size) :
    stop ≤ ops.size := by
  cases h with
  | base => exact hle
  | call hret => exact Nat.le_of_lt (Array.getElem?_eq_some_iff.1 hret).1

theorem Pending.length_le (h : Pending r T ops stop₀ R L stop calls loops) :
    R.length ≤ calls.length := by
  induction h with
  | base => exact Nat.le_refl _
  | call hret hstanding hown hpending ih =>
    rw [List.length_cons]
    omega

/-- A block that is called starts an activation of its own. -/
theorem Linked.enter (h : Linked r T ops) {b : Placement} (hb : b ∈ T) :
    ∃ stop, ops[stop]? = some .ret ∧ Standing r T ops stop b.start false := by
  obtain ⟨code, hassembled, hops⟩ := h.placed b hb
  exact ⟨_, hops.right.head, .items hassembled hops.left rfl⟩

end

/-! ## Machines -/

/-- The machine runs a linked program, with the data of the state `σ`. -/
structure Sound (r : Registry) (T : Table) (m : Machine) (σ : State) : Prop where
  linked : Linked r T m.program.ops
  /-- Names that the program refers to are still known. -/
  kept : r.KeptBy m.symbols
  distinct : m.symbols.Distinct
  represents : Represents T m σ

/-- Loops whose condition and body can be run. -/
def LoopsRefer (T : Table) (loops : List Loop) : Prop :=
  ∀ l ∈ loops, (∃ k, Refers T l.cond k) ∧ ∃ k, Refers T l.body k

/-- The innermost activation of the machine ends at `stop` and stands at `p`. The loops `own` are
its own, at most one, and `rest` are those of other activations. -/
structure Active (r : Registry) (T : Table) (S : Setup) (stop₀ : Nat) (R : List Int) (L : List Loop)
    (m : Machine) (σ : State) (stop p : Nat) (looping : Bool) (own rest : List Loop) : Prop where
  sound : Sound r T m σ
  refers : LoopsRefer T m.loops
  setup : m.setup = S
  inside : stop₀ ≤ S.ops.size
  pc : m.pc = p
  loops : m.loops = own ++ rest
  standing : Standing r T S.ops stop p looping
  own : own.length = looping.toNat
  pending : Pending r T S.ops stop₀ R L stop m.calls.items rest

/-- The machine runs code of a tree, in an activation that ends at `stop₀` with the calls `R` and
the loops `L` below it, or in one that was called from there. -/
def Governed (r : Registry) (T : Table) (S : Setup) (stop₀ : Nat) (R : List Int) (L : List Loop)
    (m : Machine) : Prop :=
  ∃ σ stop p looping own rest, Active r T S stop₀ R L m σ stop p looping own rest

/-- An instruction at the address `a`, with the calls `calls` and the loops `loops`, led to the
machine `m`. A block that was called starts out from there. -/
structure Proceeds (r : Registry) (T : Table) (S : Setup) (stop₀ : Nat) (R : List Int)
    (L : List Loop) (a : Int) (calls : List Int) (loops : List Loop) (m : Machine) : Prop where
  governed : Governed r T S stop₀ R L m
  called : m.calls.items = a :: calls →
    ∃ stop, S.ops[stop]? = some .ret ∧ Governed r T S stop (a :: calls) loops m

section

variable {r : Registry} {T : Table} {S : Setup} {m : Machine} {σ : State} {stop₀ stop p : Nat}
  {R : List Int} {L : List Loop} {looping : Bool} {own rest : List Loop}

theorem Sound.move (h : Sound r T m σ) (pc : Int) (calls : Stack Int) (loops : List Loop) :
    Sound r T { m with pc := pc, calls := calls, loops := loops } σ :=
  ⟨h.linked, h.kept, h.distinct, h.represents.move pc calls loops⟩

theorem Sound.set (h : Sound r T m σ) {n : Nat} {stack : List Datum}
    (hdrop : Represents T (m.drop n) { σ with stack := stack }) :
    Sound r T (m.drop n) { σ with stack := stack } :=
  ⟨h.linked, h.kept, h.distinct, hdrop⟩

theorem Sound.keeps (h : Sound r T m σ) {m' : Machine} {σ' : State} (hkeeps : Keeps m m')
    (hrep : Represents T m' σ') : Sound r T m' σ' where
  linked := by
    have hops : m'.program.ops = m.program.ops := congrArg Setup.ops hkeeps.setup
    rw [hops]
    exact h.linked
  kept := h.kept.trans hkeeps.symbols
  distinct := hkeeps.distinct h.distinct
  represents := hrep

namespace Active

theorem program (h : Active r T S stop₀ R L m σ stop p looping own rest) :
    m.program.ops = S.ops :=
  congrArg Setup.ops h.setup

theorem governed (h : Active r T S stop₀ R L m σ stop p looping own rest) :
    Governed r T S stop₀ R L m :=
  ⟨σ, stop, p, looping, own, rest, h⟩

theorem step_eq (h : Active r T S stop₀ R L m σ stop p looping own rest) {op : Op}
    (hop : S.ops[p]? = some op) : m.step = op.run m :=
  Machine.step_of_fetch h.pc (h.program ▸ hop)

/-- Nothing was called. -/
theorem proceeds {m' : Machine} (h : Active r T S stop₀ R L m' σ stop p looping own rest)
    {a : Int} {calls : List Int} {loops : List Loop}
    (hcalls : m'.calls.items.length ≤ calls.length) :
    Proceeds r T S stop₀ R L a calls loops m' := by
  refine ⟨h.governed, ?_⟩
  intro heq
  rw [heq, List.length_cons] at hcalls
  omega

/-- The activation goes on elsewhere in its code, perhaps with other data. -/
theorem goes (h : Active r T S stop₀ R L m σ stop p looping own rest) {m' : Machine} {σ' : State}
    {p' : Nat} (hkeeps : Keeps m m') (hrep : Represents T m' σ') (hpc : m'.pc = p')
    (hstanding : Standing r T S.ops stop p' looping) :
    Active r T S stop₀ R L m' σ' stop p' looping own rest where
  sound := h.sound.keeps hkeeps hrep
  refers := hkeeps.loops ▸ h.refers
  setup := hkeeps.setup.trans h.setup
  inside := h.inside
  pc := hpc
  loops := hkeeps.loops.trans h.loops
  standing := hstanding
  own := h.own
  pending := hkeeps.calls ▸ h.pending

/-- The activation takes values from the stack. -/
theorem set (h : Active r T S stop₀ R L m σ stop p looping own rest) {n : Nat} {stack : List Datum}
    (hdrop : Represents T (m.drop n) { σ with stack := stack }) :
    Active r T S stop₀ R L (m.drop n) { σ with stack := stack } stop p looping own rest :=
  h.goes (keeps_set m _ m.words m.pc) hdrop h.pc h.standing

/-- An operator goes on behind itself. -/
theorem follows (h : Active r T S stop₀ R L m σ stop p looping own rest)
    (hnext : Standing r T S.ops stop (p + 1) looping) {effect : Effect}
    {result : Except Fault State} (hfollows : Follows T m σ effect result) :
    effect.Leads (Proceeds r T S stop₀ R L m.pc m.calls.items m.loops) := by
  have hcalls : ∀ {m' : Machine}, Keeps m m' → m'.calls.items.length ≤ m.calls.items.length := by
    intro m' hkeeps
    exact Nat.le_of_eq (by rw [hkeeps.calls])
  cases hfollows with
  | next hkeeps hpc hrep =>
    refine (h.goes hkeeps hrep ?_ hnext).proceeds (hcalls hkeeps)
    rw [hpc, h.pc]
    rfl
  | fault hf hkeeps hpc hrep =>
    exact ⟨hf, (h.goes hkeeps hrep (hpc.trans h.pc) h.standing).proceeds (hcalls hkeeps)⟩
  | overflow hlimit hkeeps hpc hrep =>
    exact ⟨rfl, (h.goes hkeeps hrep (hpc.trans h.pc) h.standing).proceeds (hcalls hkeeps)⟩

/-- A fault that leaves the machine as it is. -/
theorem fails (h : Active r T S stop₀ R L m σ stop p looping own rest) {f : Fault}
    (hf : f.internal = false) :
    (Effect.fault f m).Leads (Proceeds r T S stop₀ R L m.pc m.calls.items m.loops) :=
  ⟨hf, h.proceeds (Nat.le_refl _)⟩

/-- A block that is called returns behind the instruction. -/
theorem calls (h : Active r T S stop₀ R L m σ stop p looping own rest)
    (hnext : Standing r T S.ops stop (p + 1) looping) {b : Placement} (hb : b ∈ T) :
    Proceeds r T S stop₀ R L m.pc m.calls.items m.loops
      { m with calls := m.calls.push m.pc, pc := b.start } := by
  have hlinked := h.sound.linked
  rw [h.program] at hlinked
  obtain ⟨inner, hret, hstanding⟩ := hlinked.enter hb
  have hsound := h.sound.move b.start (m.calls.push m.pc) m.loops
  have hinner : inner ≤ S.ops.size :=
    Nat.le_of_lt (Array.getElem?_eq_some_iff.1 hret).1
  refine ⟨⟨σ, inner, b.start, false, [], m.loops, hsound, h.refers, h.setup, h.inside, rfl, rfl,
    hstanding, rfl, ?_⟩, ?_⟩
  · have hpending := Pending.call hret hnext h.own h.pending
    rwa [← h.loops, ← h.pc] at hpending
  · intro _
    exact ⟨inner, hret, σ, inner, b.start, false, [], m.loops, hsound, h.refers, h.setup, hinner,
      rfl, rfl, hstanding, rfl, .base⟩

/-- Code that is run is a block, or a builtin that goes on behind the instruction at once. -/
theorem dispatch (h : Active r T S stop₀ R L m σ stop p looping own rest)
    (hnext : Standing r T S.ops stop (p + 1) looping) {c : Code} {k : Routine}
    (hc : Refers T c k) :
    (m.dispatch c).Leads (Proceeds r T S stop₀ R L m.pc m.calls.items m.loops) := by
  cases hc with
  | block hn =>
    simp only [Machine.dispatch]
    split
    · exact h.fails rfl
    · exact h.calls hnext (List.mem_of_getElem? hn)
  | builtin hb =>
    rcases dispatch_builtin h.sound.represents hb with ⟨text, heffect, -⟩ | ⟨heffect, -⟩
    · rw [heffect]
      have hadvance := h.goes (keeps_set m m.stack m.words (m.pc + 1))
        (h.sound.represents.move _ m.calls m.loops) (by rw [h.pc]; rfl) hnext
      exact ⟨h.proceeds (Nat.le_refl _), hadvance.proceeds (Nat.le_refl _)⟩
    · rw [heffect]
      exact h.fails rfl

/-- A loop that is entered belongs to the activation. -/
theorem loopEnter (h : Active r T S stop₀ R L m σ stop p false own rest)
    (hnext : Standing r T S.ops stop (p + 1) true) :
    (Op.loopEnter.run m).Leads (Proceeds r T S stop₀ R L m.pc m.calls.items m.loops) := by
  rcases run_loopEnter h.sound.represents with
    ⟨cond, body, kcond, kbody, stack, -, hcond, hbody, hdrop, hrun⟩ | ⟨f, hf, hrun, -⟩
  · rw [hrun]
    obtain rfl : own = [] := List.length_eq_zero_iff.1 h.own
    have hnew : Active r T S stop₀ R L
        { m.drop 2 with loops := ⟨cond, body⟩ :: m.loops, pc := m.pc + 1 }
        { σ with stack := stack } stop (p + 1) true [⟨cond, body⟩] rest :=
      { sound := (h.sound.set hdrop).move _ m.calls _
        refers := by
          rintro l (_ | ⟨_, hl⟩)
          · exact ⟨⟨kcond, hcond⟩, kbody, hbody⟩
          · exact h.refers l hl
        setup := h.setup
        inside := h.inside
        pc := by
          rw [h.pc]
          rfl
        loops := by rw [h.loops, List.nil_append, List.singleton_append]
        standing := hnext
        own := rfl
        pending := h.pending }
    exact hnew.proceeds (Nat.le_refl _)
  · rw [hrun]
    exact h.fails hf

/-- Within a loop, there is one to go on with. -/
theorem withLoop (h : Active r T S stop₀ R L m σ stop p true own rest) :
    ∃ l : Loop, (∃ k, Refers T l.cond k) ∧ (∃ k, Refers T l.body k) ∧
      ∀ f, m.withLoop f = f l rest := by
  obtain ⟨l, rfl⟩ := List.length_eq_one_iff.1 h.own
  have hrefers := h.refers l (by simp [h.loops])
  refine ⟨l, hrefers.1, hrefers.2, ?_⟩
  intro f
  rw [Machine.withLoop, h.loops, List.singleton_append]

/-- A loop is left where it was entered: by the activation that it belongs to. -/
theorem loopExit (h : Active r T S stop₀ R L m σ stop p true own rest) {target : Nat}
    (hnext : Standing r T S.ops stop (p + 1) true)
    (hexit : Standing r T S.ops stop target false) :
    ((Op.loopExit target).run m).Leads (Proceeds r T S stop₀ R L m.pc m.calls.items m.loops) := by
  obtain ⟨l, rfl⟩ := List.length_eq_one_iff.1 h.own
  rcases run_loopExit h.sound.represents h.loops target with
    ⟨-, hrun⟩ | ⟨flag, stack, -, hrun, hdrop⟩
  · rw [hrun]
    exact h.fails rfl
  · rw [hrun]
    have hset := h.set hdrop
    split
    · have hstay := hset.goes (keeps_set (m.drop 1) _ m.words (m.pc + 1))
        (hdrop.move _ m.calls m.loops) (by rw [h.pc]; rfl) hnext
      exact hstay.proceeds (Nat.le_refl _)
    · have hleft : Active r T S stop₀ R L { m.drop 1 with loops := rest, pc := target }
          { σ with stack := stack } stop target false [] rest :=
        { sound := hset.sound.move _ m.calls _
          refers := by
            intro l' hl'
            exact h.refers l' (h.loops ▸ List.mem_append_right _ hl')
          setup := h.setup
          inside := h.inside
          pc := rfl
          loops := rfl
          standing := hexit
          own := rfl
          pending := h.pending }
      exact hleft.proceeds (Nat.le_refl _)

end Active

/-- The address behind an instruction of the program. -/
theorem behind_of_lt {a : Nat} (h : a < m.program.ops.size) : m.behind a = (a + 1 : Nat) := by
  rw [Machine.behind, if_neg]
  · rfl
  · rintro ⟨-, hle⟩
    omega

/-- At its end, an activation goes back to the one that called it. -/
theorem Active.ret (h : Active r T S stop₀ R L m σ stop stop false own rest)
    (hbusy : m.pc ≠ stop₀ ∨ m.calls.items ≠ R) :
    m.step.Leads (Proceeds r T S stop₀ R L m.pc m.calls.items m.loops) := by
  obtain rfl : own = [] := List.length_eq_zero_iff.1 h.own
  have hloops : m.loops = rest := h.loops
  have hpending := h.pending
  generalize hcalls : m.calls.items = calls at hpending
  cases hpending with
  | base => exact absurd hbusy (by simp [h.pc, hcalls])
  | @call _ below a looping own calls loops hret hstanding hown hpending =>
    rw [h.step_eq hret]
    simp only [Op.run, hcalls]
    have hlt : a < m.program.ops.size := by
      have := hstanding.le
      have := hpending.le h.inside
      rw [h.program]
      omega
    have hback : Active r T S stop₀ R L { m with calls := m.calls.drop 1, pc := m.behind a } σ below
        (a + 1) looping own loops :=
      { sound := h.sound.move _ _ m.loops
        refers := h.refers
        setup := h.setup
        inside := h.inside
        pc := behind_of_lt hlt
        loops := hloops
        standing := hstanding
        own := hown
        pending := by rwa [Stack.items_drop, hcalls] }
    refine hback.proceeds ?_
    rw [Stack.items_drop, hcalls]
    exact Nat.le_succ _

/-- Every instruction keeps the invariant, up to the end of the activation it is counted from. -/
theorem Governed.step (h : Governed r T S stop₀ R L m) (hbusy : m.pc ≠ stop₀ ∨ m.calls.items ≠ R) :
    m.step.Leads (Proceeds r T S stop₀ R L m.pc m.calls.items m.loops) := by
  obtain ⟨σ, stop, p, looping, own, rest, h⟩ := h
  have hrep := h.sound.represents
  rcases h.standing.site with ⟨rfl, rfl⟩ | ⟨op, hop, hsite⟩
  · exact h.ret hbusy
  · rw [h.step_eq hop]
    cases hsite with
    | push hv hnext =>
      have hv' := hv.mono h.sound.kept (List.prefix_refl T)
      exact h.follows hnext (Represents.push hrep (.refl m) rfl hv')
    | primitive q hnext =>
      exact h.follows hnext (q.follows hrep h.sound.distinct h.sound.linked.ordered)
    | select hnext => exact h.follows hnext (follows_select hrep)
    | exec hnext =>
      rcases run_exec hrep with ⟨c, k, stack, -, hc, hdrop, hrun⟩ | ⟨f, hf, hrun, -⟩
      · rw [hrun]
        exact (h.set hdrop).dispatch hnext hc
      · rw [hrun]
        exact h.fails hf
    | call hname hnext =>
      rcases run_call hrep (h.sound.kept hname) with ⟨c, k, -, hc, hrun⟩ | ⟨-, hrun⟩
      · rw [hrun]
        exact h.dispatch hnext hc
      · rw [hrun]
        exact h.fails rfl
    | loopEnter hnext => exact h.loopEnter hnext
    | loopCond hnext =>
      obtain ⟨l, ⟨k, hc⟩, -, hloop⟩ := h.withLoop
      rw [Op.run, hloop]
      exact h.dispatch hnext hc
    | loopExit hnext hexit => exact h.loopExit hnext hexit
    | loopBody hnext =>
      obtain ⟨l, -, ⟨k, hc⟩, hloop⟩ := h.withLoop
      rw [Op.run, hloop]
      exact h.dispatch hnext hc
    | jump hjump =>
      have hgoes := h.goes (keeps_set m m.stack m.words _) (hrep.move _ m.calls m.loops) rfl hjump
      exact hgoes.proceeds (Nat.le_refl _)

theorem Governed.goes (h : Governed r T S stop₀ R L m) (hbusy : m.pc ≠ stop₀ ∨ m.calls.items ≠ R)
    {out : Bytes} {m' : Machine} (hgoes : m.Goes out m') :
    Proceeds r T S stop₀ R L m.pc m.calls.items m.loops m' := by
  have hstep := h.step hbusy
  cases hgoes with
  | next heffect =>
    rw [heffect] at hstep
    exact hstep
  | emit heffect =>
    rw [heffect] at hstep
    exact hstep.2

theorem Governed.inside (h : Governed r T S stop₀ R L m) :
    0 ≤ m.pc ∧ m.pc ≤ S.ops.size := by
  obtain ⟨σ, stop, p, looping, own, rest, h⟩ := h
  have hle : p ≤ S.ops.size := Nat.le_trans h.standing.le (h.pending.le h.inside)
  rw [h.pc]
  omega

/-- A `ret` of the activation that control is counted from is at its end, and finds the calls and
loops as they were when it started. -/
theorem Governed.at_bottom (h : Governed r T S stop₀ R L m) (hret : m.fetch? = some .ret)
    (hcalls : m.calls.items.length = R.length) :
    m.pc = stop₀ ∧ m.calls.items = R ∧ m.loops = L := by
  obtain ⟨σ, stop, p, looping, own, rest, h⟩ := h
  have hop : S.ops[p]? = some .ret := by
    rw [Machine.fetch?, h.pc] at hret
    exact h.program ▸ hret
  rcases h.standing.site with ⟨rfl, rfl⟩ | ⟨op, hop', hsite⟩
  · obtain rfl : own = [] := List.length_eq_zero_iff.1 h.own
    have hloops : m.loops = rest := h.loops
    have hpending := h.pending
    have hpc := h.pc
    generalize m.calls.items = calls at hpending hcalls ⊢
    cases hpending with
    | base => exact ⟨hpc, rfl, hloops⟩
    | call _ _ _ hbelow =>
      have := hbelow.length_le
      rw [List.length_cons] at hcalls
      omega
  · rw [hop] at hop'
    exact absurd (Option.some.inj hop').symm hsite.op_ne_ret

theorem Governed.setup (h : Governed r T S stop₀ R L m) : m.setup = S := by
  obtain ⟨σ, stop, p, looping, own, rest, h⟩ := h
  exact h.setup

theorem Governed.program (h : Governed r T S stop₀ R L m) : m.program.ops = S.ops :=
  congrArg Setup.ops h.setup

/-- A machine whose top-level code is at its end has nothing pending. -/
theorem Governed.quiet (h : Governed r T S S.ops.size [] [] m) (hstop : m.running = false) :
    m.pc = S.ops.size ∧ m.calls.items = [] ∧ m.loops = [] := by
  obtain ⟨hpos, hle⟩ := h.inside
  have hge : ¬ m.pc < S.ops.size := by simpa [Machine.running, h.program] using hstop
  have hpc : m.pc = S.ops.size := by omega
  obtain ⟨σ, stop, p, looping, own, rest, h⟩ := h
  have hp : p = S.ops.size := by
    rw [h.pc] at hpc
    omega
  have hend : S.ops[p]? = none := Array.getElem?_eq_none (Nat.le_of_eq hp.symm)
  rcases h.standing.site with ⟨rfl, rfl⟩ | ⟨op, hop, -⟩
  · obtain rfl : own = [] := List.length_eq_zero_iff.1 h.own
    have hloops : m.loops = rest := h.loops
    have hpending := h.pending
    generalize m.calls.items = calls at hpending ⊢
    cases hpending with
    | base => exact ⟨hpc, rfl, hloops⟩
    | call hret =>
      rw [hend] at hret
      cases hret
  · rw [hend] at hop
    cases hop

end

end StackLang.Tree
