import StackLang.Proofs.Aborts
import StackLang.Proofs.Compilation
import StackLang.Proofs.Control

/-!
# Loading a source

Compiling a source behind a program keeps what the program has, and adds the blocks of the source to
its table. A session at rest that loads a source is ready to run its tree; if the source is refused,
the session is still at rest.

* `Compiled.linked`: the program with the new code is linked.
* `Resting`: the invariant between two evaluations.
* `Session.load_cases`: the two ways in which loading a source can end.
-/

namespace StackLang.Tree

/-! ## Linking -/

theorem Holds.mono {base ops : Array Op} (hops : base.toList <+: ops.toList) {p : Nat}
    {code : List Op} (h : Holds base p code) : Holds ops p code := by
  obtain ⟨new, hnew⟩ := hops
  intro i op hi
  have hbase := h hi
  rw [← Array.getElem?_toList] at hbase ⊢
  rw [← hnew, List.getElem?_append_left (List.getElem?_eq_some_iff.1 hbase).1, hbase]

theorem holds_of_append {ops : Array Op} {before code after : List Op}
    (h : ops.toList = before ++ (code ++ after)) : Holds ops before.length code := by
  intro i op hi
  rw [← Array.getElem?_toList, h, List.getElem?_append_right (Nat.le_add_right _ _),
    Nat.add_sub_cancel_left, List.getElem?_append_left (List.getElem?_eq_some_iff.1 hi).1, hi]

theorem Known.mono {T T' : Table} {op : Op} (h : Known T op) (hT : T <+: T') : Known T' op := by
  refine ⟨h.1, ?_⟩
  intro c hc
  obtain ⟨k, hk⟩ := h.2 c hc
  exact ⟨k, hk.mono hT⟩

theorem Assembled.known {r : Registry} {T : Table} {p : Nat} {items : List Item} {code : List Op}
    (h : Assembled r T p items code) {op : Op} (hop : op ∈ code) : Known T op := by
  refine ⟨(h.op_ne hop).2, ?_⟩
  rintro c rfl
  obtain ⟨number, start, body, -, hT, rfl⟩ := h.push_code hop
  exact ⟨_, .block hT⟩

theorem Filled.known {r : Registry} {T blocks : Table} {p : Nat} {code : List Op}
    (h : Filled r T p blocks code) {op : Op} (hop : op ∈ code) : Known T op := by
  rcases h.mem_cases hop with rfl | ⟨b, -, c, hbody, hop⟩
  · exact ⟨by simp, by simp⟩
  · exact hbody.known hop

/-- Blocks that fill a stretch of a program are placed in it. -/
theorem Filled.placed {r : Registry} {T blocks : Table} {p : Nat} {code : List Op}
    (h : Filled r T p blocks code) {ops : Array Op} (hops : Holds ops p code) {b : Placement}
    (hb : b ∈ blocks) :
    p ≤ b.start ∧ ∃ c, Assembled r T b.start b.body c ∧ Holds ops b.start (c ++ [.ret]) := by
  induction h with
  | nil => cases hb
  | @cons p body code rest blocks hbody _ ih =>
    have hsplit : Holds ops p ((code ++ [.ret]) ++ rest) := by simpa using hops
    rcases List.mem_cons.1 hb with rfl | hb
    · exact ⟨Nat.le_refl p, code, hbody, hsplit.left⟩
    · have hrest := hsplit.right
      rw [List.length_append, List.length_singleton, ← Nat.add_assoc] at hrest
      obtain ⟨hle, hplaced⟩ := ih hrest hb
      exact ⟨by omega, hplaced⟩

theorem Filled.ordered {r : Registry} {T blocks : Table} {p : Nat} {code : List Op}
    (h : Filled r T p blocks code) : (∀ b ∈ blocks, p ≤ b.start) ∧ Ordered blocks := by
  induction h with
  | nil => exact ⟨by simp, List.Pairwise.nil⟩
  | @cons p body code rest blocks hbody _ ih =>
    refine ⟨?_, List.Pairwise.cons ?_ ih.2⟩
    · intro b hb
      rcases List.mem_cons.1 hb with rfl | hb
      · exact Nat.le_refl p
      · have := ih.1 b hb
        omega
    · intro b hb
      have := ih.1 b hb
      show p < b.start
      omega

/-- A block starts within the program. -/
theorem Linked.start_lt {r : Registry} {T : Table} {ops : Array Op} (h : Linked r T ops)
    {b : Placement} (hb : b ∈ T) : b.start < ops.size := by
  obtain ⟨code, -, hops⟩ := h.placed b hb
  have hret := (Array.getElem?_eq_some_iff.1 hops.right.head).1
  omega

theorem Linked.mono {r r' : Registry} {T : Table} {ops : Array Op} (h : Linked r T ops)
    (hr : r.KeptBy r') : Linked r' T ops where
  ordered := h.ordered
  placed := by
    intro b hb
    obtain ⟨code, hassembled, hops⟩ := h.placed b hb
    exact ⟨code, hassembled.mono hr (List.prefix_refl T), hops⟩
  known := h.known

/-- A program that grew by the code of a tree is linked if it was before. -/
theorem Compiled.linked {base : Array Op} {T new : Table} {tree : List Item} {r r' : Registry}
    {blockCode rootCode : List Op} {program : Program}
    (hc : Compiled base T tree new r' blockCode rootCode program) (h : Linked r T base)
    (hr : r.KeptBy r') : Linked r' (T ++ new) program.ops := by
  have hT : T <+: T ++ new := List.prefix_append T new
  have hgrown : base.toList <+: program.ops.toList := by
    rw [hc.ops]
    exact List.prefix_append _ _
  have hnew : Holds program.ops base.size blockCode := by
    simpa using holds_of_append hc.ops
  obtain ⟨hle, hordered⟩ := hc.filled.ordered
  refine ⟨?_, ?_, ?_⟩
  · refine List.pairwise_append.2 ⟨h.ordered, hordered, ?_⟩
    intro b hb b' hb'
    exact Nat.lt_of_lt_of_le (h.start_lt hb) (hle b' hb')
  · intro b hb
    rcases List.mem_append.1 hb with hb | hb
    · obtain ⟨code, hassembled, hops⟩ := h.placed b hb
      exact ⟨code, hassembled.mono hr hT, hops.mono hgrown⟩
    · exact (hc.filled.placed hnew hb).2
  · intro op hop
    rw [← Array.mem_toList_iff, hc.ops, List.mem_append, List.mem_append] at hop
    rcases hop with hop | hop | hop
    · exact (h.known op (Array.mem_toList_iff.1 hop)).mono hT
    · exact hc.filled.known hop
    · exact hc.assembled.known hop

/-! ## Machines at rest -/

/-- A machine between two evaluations: nothing is left to run, and nothing is pending. -/
structure Resting (T : Table) (m : Machine) (σ : State) : Prop where
  sound : Sound m.symbols T m σ
  pc : m.pc = m.program.ops.size
  calls : m.calls.items = []
  loops : m.loops = []

/-- The names that the program refers to may as well be all that are known. -/
theorem Sound.refresh {r : Registry} {T : Table} {m : Machine} {σ : State} (h : Sound r T m σ) :
    Sound m.symbols T m σ :=
  ⟨h.linked.mono h.kept, .refl _, h.distinct, h.represents⟩

theorem Represents.setStack_nil {T : Table} {m : Machine} {σ : State} (h : Represents T m σ) :
    Represents T m.reset { σ with stack := [] } :=
  ⟨.nil, h.words, h.bound, h.named⟩

/-- A machine that is reset is at rest, whatever it was doing. -/
theorem Sound.reset {r : Registry} {T : Table} {m : Machine} {σ : State} (h : Sound r T m σ) :
    Resting T m.reset { σ with stack := [] } where
  sound := ⟨h.linked.mono h.kept, .refl _, h.distinct, h.represents.setStack_nil⟩
  pc := rfl
  calls := rfl
  loops := rfl

/-- Names may be added at rest. -/
theorem Resting.setSymbols {T : Table} {m : Machine} {σ : State} (h : Resting T m σ)
    {r : Registry} (hr : m.symbols.KeptBy r) (hdistinct : r.Distinct) :
    Resting T { m with symbols := r } σ where
  sound := ⟨h.sound.linked.mono hr, .refl _, hdistinct,
    h.sound.represents.mono hr hdistinct (List.prefix_refl T)⟩
  pc := h.pc
  calls := h.calls
  loops := h.loops

/-- The machine `m'` is the machine `m` with a tree loaded, and stands at the start of its code. -/
structure Loaded (T : Table) (tree : List Item) (new : Table) (m m' : Machine) (σ : State) :
    Prop where
  bodies : new.map Placement.body = (blocks tree).map Prod.snd
  sound : Sound m'.symbols (T ++ new) m' σ
  code : ∃ (p : Nat) (code : List Op), m'.pc = p ∧ Assembled m'.symbols (T ++ new) p tree code ∧
    Holds m'.program.ops p code ∧ p + code.length = m'.program.ops.size
  calls : m'.calls.items = []
  loops : m'.loops = []
  stackLimit : m'.stackLimit = m.stackLimit
  callLimit : m'.callLimit = m.callLimit

theorem Loaded.governed {T : Table} {tree : List Item} {new : Table} {m m' : Machine} {σ : State}
    (h : Loaded T tree new m m' σ) :
    Governed m'.symbols (T ++ new) m'.setup m'.program.ops.size [] [] m' := by
  obtain ⟨p, code, hpc, hassembled, hops, hend⟩ := h.code
  refine ⟨σ, m'.program.ops.size, p, false, [], [], h.sound, ?_, rfl, Nat.le_refl _, hpc, h.loops,
    .items hassembled hops hend, rfl, ?_⟩
  · intro l hl
    rw [h.loops] at hl
    cases hl
  · rw [h.calls]
    exact .base

/-- A tree that was compiled behind the program of a machine at rest. -/
theorem Resting.loaded {T : Table} {m : Machine} {σ : State} (h : Resting T m σ) {tree : List Item}
    {new : Table} {r : Registry} {blockCode rootCode : List Op} {program : Program}
    (hc : Compiled m.program.ops T tree new r blockCode rootCode program)
    (hr : m.symbols.KeptBy r) (hdistinct : r.Distinct) :
    Loaded T tree new m { m with symbols := r, program := program, pc := program.entry } σ where
  bodies := hc.bodies
  sound := by
    have hrep := h.sound.represents.mono hr hdistinct (List.prefix_append T new)
    exact ⟨hc.linked h.sound.linked hr, .refl _, hdistinct,
      ⟨hrep.stack, hrep.words, hrep.bound, hrep.named⟩⟩
  code := by
    have hops : program.ops.toList =
        (m.program.ops.toList ++ blockCode) ++ (rootCode ++ []) := by simp [hc.ops]
    have hlength := congrArg List.length hops
    refine ⟨_, rootCode, hc.entry, hc.assembled, ?_, ?_⟩
    · simpa using holds_of_append hops
    · simp at hlength
      simp only
      omega
  calls := h.calls
  loops := h.loops
  stackLimit := rfl
  callLimit := rfl

end StackLang.Tree

namespace StackLang.Session

open StackLang.Tree

/-! ## Sessions -/

theorem setSymbols_machine {s s' : Session} (h : s'.machine = s.machine) (r : Registry) :
    (s'.setSymbols r).machine = { s.machine with symbols := r } := by
  rw [setSymbols, h]

/-- Announcing blocks logs them. Only a log that refuses a line aborts it, and leaves the names
known by then. -/
theorem announce_cases (s : Session) (ls : List Layout) :
    (∃ s', s.announce ls = (s', none) ∧ s.Serves (s', none) ∧ s'.output = s.output) ∨
      ∃ s' a, s.announce ls = (s', some a) ∧ s.Alike s' ∧ a.Proper s.Calm ∧ ¬ s.Calm ∧
        ∃ l ∈ ls, s'.machine = { s.machine with symbols := l.symbols } := by
  induction ls generalizing s with
  | nil => exact Or.inl ⟨s, rfl, .unaborted rfl (.refl s), rfl⟩
  | cons l ls ih =>
    have hserves := s.log_serves
      (lit "block @" ++ Decimal.ofNat l.start ++ lit " len " ++ Decimal.ofNat l.length)
    have houtput := s.log_output
      (lit "block @" ++ Decimal.ofNat l.start ++ lit " len " ++ Decimal.ofNat l.length)
    have hcalm : s.Calm → _ := fun h => log_calm h
      (lit "block @" ++ Decimal.ofNat l.start ++ lit " len " ++ Decimal.ofNat l.length)
    unfold announce
    generalize s.log _ = logged at hserves houtput hcalm ⊢
    obtain ⟨s₁, abort⟩ := logged
    cases abort with
    | none =>
      rcases ih s₁ with ⟨s', heq, hs', ho⟩ | ⟨s', a, heq, halike, hproper, hnot, l', hl', hm⟩
      · exact Or.inl ⟨s', heq, hserves.trans hs', ho.trans houtput⟩
      · refine Or.inr ⟨s', a, heq, hserves.alike.trans halike, ?_, ?_, l', ?_, ?_⟩
        · exact hproper.imp hserves.alike.calm
        · exact fun h => hnot (hserves.alike.calm h)
        · exact List.mem_cons_of_mem l hl'
        · rw [hm, hserves.machine]
    | some a =>
      refine Or.inr ⟨s₁.setSymbols l.symbols, a, rfl, hserves.alike.setMachine _,
        hserves.proper a rfl, ?_, l, List.mem_cons_self, setSymbols_machine hserves.machine _⟩
      intro h
      cases hcalm h

/-- Loading a source succeeds, and the tree of the source is ready to run; or it aborts, and the
session is still at rest. -/
theorem load_cases {T : Table} {s : Session} {σ : State} (h : Resting T s.machine σ)
    (src : Bytes) :
    (∃ t a, s.load src = (t, some a) ∧ Resting T t.machine σ ∧ t.machine.setup = s.machine.setup ∧
      s.Alike t ∧ a.Proper s.Calm ∧ (s.Calm → ofSource? T.length src = none)) ∨
    ∃ t tree new, s.load src = (t, none) ∧ ofSource? T.length src = some tree ∧
      Loaded T tree new s.machine t.machine σ ∧ s.Alike t ∧ t.output = s.output := by
  obtain ⟨hkept, hdistinct, hlayouts⟩ := Draft.compile_grows
    { symbols := s.machine.symbols, ops := s.machine.program.ops } src
  have hcompiled := fun d program hd => @compiled_of_compile
    { symbols := s.machine.symbols, ops := s.machine.program.ops } d src program hd T
  have hiff := compile_ok_iff { symbols := s.machine.symbols, ops := s.machine.program.ops } src
    T.length
  unfold load
  generalize Draft.compile { symbols := s.machine.symbols, ops := s.machine.program.ops } src =
    compiled at hkept hdistinct hlayouts hcompiled hiff ⊢
  obtain ⟨d, result⟩ := compiled
  have hd : d.symbols.Distinct := hdistinct h.sound.distinct
  rcases s.announce_cases d.layouts.reverse with
    ⟨s', heq, hserves, houtput⟩ | ⟨s', a, heq, halike, hproper, hnot, l, hl, hmachine⟩
  · simp only [heq]
    have hmachine := setSymbols_machine hserves.machine d.symbols
    have halike := hserves.alike.setMachine (s'.setSymbols d.symbols).machine
    cases result with
    | ok program =>
      obtain ⟨tree, new, blockCode, rootCode, htree, hc⟩ := hcompiled d program rfl
      refine Or.inr ⟨_, tree, new, rfl, htree, ?_, hserves.alike.setMachine _, houtput⟩
      simp only [hmachine]
      exact h.loaded hc hkept hd
    | error e =>
      obtain ⟨t, hhalt, hm, ht, -⟩ := (s'.setSymbols d.symbols).halt_eq (.fault (.parsing e))
      rw [hmachine] at hm
      refine Or.inl ⟨t, _, hhalt, ?_, ?_, halike.trans ht, ?_, ?_⟩
      · rw [hm]
        exact h.setSymbols hkept hd
      · rw [hm]
        rfl
      · exact ⟨_, rfl, fun _ => Error.expected_fault rfl⟩
      · intro _
        rw [Option.eq_none_iff_forall_ne_some]
        intro tree htree
        obtain ⟨d', program, heq'⟩ := hiff.2 ⟨tree, htree⟩
        cases heq'
  · simp only [heq]
    -- The names are those known when the refused line was due, between the old and the new ones.
    obtain ⟨hkept', hdistinct'⟩ := (hlayouts l (List.mem_reverse.1 hl)).resolve_left (by simp)
    refine Or.inl ⟨s', a, rfl, ?_, ?_, halike, hproper, fun hcalm => absurd hcalm hnot⟩
    · rw [hmachine]
      exact h.setSymbols hkept' (hdistinct' h.sound.distinct)
    · rw [hmachine]
      rfl

end StackLang.Session
