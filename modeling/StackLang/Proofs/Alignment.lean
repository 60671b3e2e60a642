import StackLang.Proofs.Lockstep

/-!
# Programs with the same blocks

Two programs may have the code of the same blocks in different places, with other code between
them. What matters is that a block has the same number in both, so that a chart can take the start
of the one to the start of the other, and every instruction of the one to that of the other.

* `Assembled.alike`: the code of the same items is the same up to names and addresses.
* `Ready T m items`: the machine `m` is about to run `items`, and nothing else.
* `Aligned.chart`: the chart between two machines that are about to run the same items.
* `Aligned.ends`: where the one machine is done, the other is about to run what is left.
* `Machine.SameData`: machines at rest with the same data up to names and addresses.
-/

namespace StackLang.Tree

/-! ## Blocks -/

/-- The same block starts at `a` in the table `T` and at `a'` in the table `T'`. -/
inductive SameBlock (T T' : Table) : Int → Int → Prop
  | intro {n : Nat} {b b' : Placement} (h : T[n]? = some b) (h' : T'[n]? = some b') :
    SameBlock T T' b.start b'.start

theorem SameBlock.one_to_one {T T' : Table} (hT : Ordered T) (hT' : Ordered T') {a a' c c' : Int}
    (h : SameBlock T T' a a') (h' : SameBlock T T' c c') : a = c ↔ a' = c' := by
  obtain ⟨ha, ha'⟩ := h
  obtain ⟨hc, hc'⟩ := h'
  rw [Int.natCast_inj, Int.natCast_inj]
  constructor
  · intro heq
    obtain rfl := hT.number_eq ha hc heq
    rw [ha'] at hc'
    cases hc'
    rfl
  · intro heq
    obtain rfl := hT'.number_eq ha' hc' heq
    rw [ha] at hc
    cases hc
    rfl

theorem SameBlock.mono {T T' U U' : Table} {a a' : Int} (h : SameBlock T T' a a') (hT : T <+: U)
    (hT' : T' <+: U') : SameBlock U U' a a' := by
  obtain ⟨hb, hb'⟩ := h
  exact ⟨getElem?_mono hT hb, getElem?_mono hT' hb'⟩

/-! ## Code -/

theorem Stands.alike {B : Int → Int → Prop} {r r' : Registry} {v v' : Value} {c : Constant}
    (h : Stands r v c) (h' : Stands r' v' c) : Value.Alike B r r' v v' := by
  cases h with
  | bool b =>
    cases h'
    exact .bool b
  | int n =>
    cases h'
    exact .int n
  | sym hname =>
    cases h' with
    | sym hname' => exact .sym ⟨_, hname, hname'⟩
  | str hname =>
    cases h' with
    | str hname' => exact .str ⟨_, hname, hname'⟩

theorem Primitive.op_isPlain (q : Primitive) : q.op.isPlain := by
  cases q <;> rfl

section

variable {χ : Chart} {r r' : Registry} {T T' : Table} {p p' : Nat} {code code' : List Op}
  (hstarts : ∀ ⦃a a'⦄, SameBlock T T' a a' → χ.starts a a')

include hstarts

theorem Encodes.alike {item : Item} (h : Encodes r T p item code) (h' : Encodes r' T' p' item code')
    (hstands : ∀ j ≤ code.length, χ.stands (p + j : Nat) (p' + j : Nat)) :
    List.Forall₂ (Op.Alike χ r r') code code' := by
  cases h with
  | constant hc =>
    cases h' with
    | constant hc' => exact .cons (.push (hc.alike hc')) .nil
  | primitive q =>
    cases h'
    exact .cons (.plain q.op_isPlain) .nil
  | exec =>
    cases h'
    exact .cons (.plain rfl) .nil
  | choose =>
    cases h'
    exact .cons (.plain rfl) (.cons (.plain rfl) .nil)
  | loop =>
    cases h'
    have hexit := hstands 5 (by simp [Draft.loopCode])
    have hjump := hstands 1 (by simp [Draft.loopCode])
    exact .cons (.plain rfl) (.cons (.plain rfl) (.cons (.loopExit hexit)
      (.cons (.plain rfl) (.cons (.jump hjump) .nil))))
  | call hname =>
    cases h' with
    | call hname' => exact .cons (.call ⟨_, hname, hname'⟩) .nil
  | block hb =>
    cases h' with
    | block hb' => exact .cons (.push (.code (.block (hstarts ⟨hb, hb'⟩)))) .nil

/-- The code of the same items is the same, wherever it stands. -/
theorem Assembled.alike {items : List Item} (h : Assembled r T p items code)
    (h' : Assembled r' T' p' items code')
    (hstands : ∀ j ≤ code.length, χ.stands (p + j : Nat) (p' + j : Nat)) :
    List.Forall₂ (Op.Alike χ r r') code code' := by
  induction h generalizing p' code' with
  | nil =>
    cases h'
    exact .nil
  | @cons p item items own rest hitem _ ih =>
    cases h' with
    | @cons _ _ _ own' rest' hitem' hrest' =>
      have hown := hitem.alike hstarts hitem' fun j hj =>
        hstands j (by rw [List.length_append]; omega)
      refine List.rel_append hown (ih hrest' fun j hj => ?_)
      have hlater := hstands (own.length + j) (by rw [List.length_append]; omega)
      rw [← Nat.add_assoc, ← Nat.add_assoc] at hlater
      rwa [← hown.length_eq]

end

/-- Where alike code stands, alike instructions are found. -/
theorem Holds.fetch_alike {χ : Chart} {r r' : Registry} {ops ops' : Array Op} {p p' i : Nat}
    {code code' : List Op} (hops : Holds ops p code) (hops' : Holds ops' p' code')
    (halike : List.Forall₂ (Op.Alike χ r r') code code') (hi : i < code.length) {op : Op}
    (hop : fetchAt ops (p + i : Nat) = some op) :
    ∃ op', fetchAt ops' (p' + i : Nat) = some op' ∧ Op.Alike χ r r' op op' := by
  have hat := List.getElem?_eq_getElem hi
  obtain rfl : code[i] = op := Option.some.inj ((hops hat).symm.trans hop)
  obtain ⟨op', hop', h⟩ := Op.alike_at halike hat
  exact ⟨op', hops' hop', h⟩

/-- The code of items one behind the other is their code one behind the other. -/
theorem Assembled.split {r : Registry} {T : Table} {p : Nat} {items more : List Item}
    {code : List Op} (h : Assembled r T p (items ++ more) code) :
    ∃ own rest, code = own ++ rest ∧ Assembled r T p items own ∧
      Assembled r T (p + own.length) more rest := by
  induction items generalizing p code with
  | nil => exact ⟨[], code, rfl, .nil, h⟩
  | cons item items ih =>
    cases h with
    | @cons _ _ _ first later hitem hlater =>
      obtain ⟨own, rest, rfl, hown, hrest⟩ := ih hlater
      refine ⟨first ++ own, rest, (List.append_assoc _ _ _).symm, .cons hitem hown, ?_⟩
      rwa [List.length_append, ← Nat.add_assoc]

/-! ## Machines about to run -/

/-- The machine is about to run the given items, and nothing else: their code goes up to the end of
the program. -/
structure Ready (T : Table) (m : Machine) (items : List Item) : Prop where
  linked : Linked m.symbols T m.program.ops
  code : ∃ (p : Nat) (code : List Op), m.pc = p ∧ Assembled m.symbols T p items code ∧
    Holds m.program.ops p code ∧ p + code.length = m.program.ops.size

theorem Loaded.ready {T : Table} {tree : List Item} {new : Table} {m m' : Machine} {σ : State}
    (h : Loaded T tree new m m' σ) : Ready (T ++ new) m' tree :=
  ⟨h.sound.linked, h.code⟩

theorem Ready.over {T : Table} {m : Machine} (h : Ready T m []) : m.running = false := by
  obtain ⟨p, code, hpc, hcode, -, hend⟩ := h.code
  cases hcode
  simp [Machine.running, hpc, ← hend]

/-- Both machines are about to run the same items, and the second one then `more`. Their programs
have the same blocks under the same numbers, and the second one may have further blocks. -/
structure Aligned (T T' : Table) (m m' : Machine) (items more : List Item) : Prop where
  ready : Ready T m items
  ready' : Ready T' m' (items ++ more)
  bodies : T.map Placement.body <+: T'.map Placement.body

/-- Addresses that belong together: within a block, or within the code that is about to be run. -/
inductive Matched (T T' : Table) (m m' : Machine) : Int → Int → Prop
  | block {n i : Nat} {b b' : Placement} {code : List Op} (hb : T[n]? = some b)
    (hb' : T'[n]? = some b') (hcode : Assembled m.symbols T b.start b.body code)
    (hops : Holds m.program.ops b.start (code ++ [.ret])) (hi : i ≤ code.length) :
    Matched T T' m m' (b.start + i : Nat) (b'.start + i : Nat)
  | top {i : Nat} (hi : m.pc + i ≤ m.program.ops.size) : Matched T T' m m' (m.pc + i) (m'.pc + i)

namespace Aligned

variable {T T' : Table} {m m' : Machine} {items more : List Item}

theorem body_eq (h : Aligned T T' m m' items more) {n : Nat} {b b' : Placement}
    (hb : T[n]? = some b) (hb' : T'[n]? = some b') : b.body = b'.body := by
  obtain ⟨rest, hrest⟩ := h.bodies
  have hbody : (T.map Placement.body)[n]? = some b.body := by rw [List.getElem?_map, hb]; rfl
  have hbody' : (T'.map Placement.body)[n]? = some b'.body := by rw [List.getElem?_map, hb']; rfl
  rw [← hrest, List.getElem?_append_left (List.getElem?_eq_some_iff.1 hbody).1, hbody] at hbody'
  exact Option.some.inj hbody'

/-- The chart between the programs of the two machines. -/
def chart (h : Aligned T T' m m' items more) : Chart where
  stands := Matched T T' m m'
  starts := SameBlock T T'
  stands_of_starts := by
    rintro _ _ ⟨hb, hb'⟩
    obtain ⟨code, hcode, hops⟩ := h.ready.linked.placed _ (List.mem_of_getElem? hb)
    exact .block hb hb' hcode hops (Nat.zero_le _)
  one_to_one _ _ _ _ hstart hstart' :=
    hstart.one_to_one h.ready.linked.ordered h.ready'.linked.ordered hstart'

/-- A block has the same code in both programs. -/
theorem block_alike (h : Aligned T T' m m' items more) {n : Nat} {b b' : Placement}
    {code : List Op} (hb : T[n]? = some b) (hb' : T'[n]? = some b')
    (hcode : Assembled m.symbols T b.start b.body code)
    (hops : Holds m.program.ops b.start (code ++ [.ret])) :
    ∃ code', Holds m'.program.ops b'.start (code' ++ [.ret]) ∧
      List.Forall₂ (Op.Alike h.chart m.symbols m'.symbols) (code ++ [.ret]) (code' ++ [.ret]) := by
  obtain ⟨code', hcode', hops'⟩ := h.ready'.linked.placed _ (List.mem_of_getElem? hb')
  rw [← h.body_eq hb hb'] at hcode'
  have halike : List.Forall₂ (Op.Alike h.chart m.symbols m'.symbols) code code' :=
    hcode.alike (fun _ _ hstart => hstart) hcode' fun j hj => .block hb hb' hcode hops hj
  exact ⟨code', hops', List.rel_append halike (.cons (.plain rfl) .nil)⟩

/-- What is about to be run has the same code in both programs, and the rest comes behind. -/
theorem top_alike (h : Aligned T T' m m' items more) :
    ∃ (p p' : Nat) (code code' rest : List Op), m.pc = p ∧ m'.pc = p' ∧
      Holds m.program.ops p code ∧ p + code.length = m.program.ops.size ∧
      Holds m'.program.ops p' (code' ++ rest) ∧
      List.Forall₂ (Op.Alike h.chart m.symbols m'.symbols) code code' ∧
      Assembled m'.symbols T' (p' + code.length) more rest ∧
      p' + code.length + rest.length = m'.program.ops.size := by
  obtain ⟨p, code, hpc, hcode, hops, hend⟩ := h.ready.code
  obtain ⟨p', code', hpc', hcode', hops', hend'⟩ := h.ready'.code
  obtain ⟨own, rest, rfl, hown, hrest⟩ := hcode'.split
  have halike : List.Forall₂ (Op.Alike h.chart m.symbols m'.symbols) code own := by
    refine hcode.alike (fun _ _ hstart => hstart) hown fun j hj => ?_
    have htop : Matched T T' m m' (m.pc + j) (m'.pc + j) := .top (by rw [hpc]; omega)
    rw [hpc, hpc'] at htop
    exact htop
  rw [← halike.length_eq] at hrest
  refine ⟨p, p', code, own, rest, hpc, hpc', hops, hend, hops', halike, hrest, ?_⟩
  rw [List.length_append, ← halike.length_eq] at hend'
  omega

theorem maps (h : Aligned T T' m m' items more) :
    h.chart.Maps m.symbols m'.symbols m.program.ops m'.program.ops where
  op := by
    intro a a' op hstands hop
    cases hstands with
    | block hb hb' hcode hops hi =>
      obtain ⟨code', hops', halike⟩ := h.block_alike hb hb' hcode hops
      exact hops.fetch_alike hops' halike (by simpa using Nat.lt_succ_of_le hi) hop
    | @top i hi =>
      obtain ⟨p, p', code, code', rest, hpc, hpc', hops, hend, hops', halike, -⟩ := h.top_alike
      have hlt := lt_of_fetchAt hop
      rw [hpc] at hop hlt
      rw [hpc']
      exact hops.fetch_alike hops'.left halike (by omega) hop
  next := by
    intro a a' op hstands hop hret
    cases hstands with
    | @block n i b b' code hb hb' hcode hops hi =>
      rcases Nat.lt_or_eq_of_le hi with hlt | rfl
      · exact .block hb hb' hcode hops hlt
      · -- Behind the items of a block is its `ret`.
        have hlast : m.program.ops[b.start + code.length]? = some .ret := hops.right.head
        exact absurd (Option.some.inj (hop.symm.trans hlast)) hret
    | @top i hi =>
      have hlt := lt_of_fetchAt hop
      have hnext : Matched T T' m m' (m.pc + (i + 1 : Nat)) (m'.pc + (i + 1 : Nat)) :=
        .top (by omega)
      rwa [Int.natCast_add, ← Int.add_assoc, ← Int.add_assoc] at hnext

/-- Where the first machine is done, the second one is about to run the rest. -/
theorem ends (h : Aligned T T' m m' items more) {e e' : Machine} (hpreserves : m.Preserves e)
    (hpreserves' : m'.Preserves e') (hpc : h.chart.stands e.pc e'.pc)
    (hover : e.pc = e.program.ops.size) : Ready T' e' more := by
  obtain ⟨p, p', code, code', rest, hp, hp', -, hend, hops', halike, hrest, hend'⟩ := h.top_alike
  refine ⟨?_, p' + code.length, rest, ?_, hrest.mono hpreserves'.symbols (List.prefix_refl T'), ?_,
    ?_⟩
  · rw [hpreserves'.program]
    exact h.ready'.linked.mono hpreserves'.symbols
  · rw [hpreserves.program] at hover
    generalize e.pc = a at hpc hover
    generalize e'.pc = a' at hpc ⊢
    cases hpc with
    | block hb hb' hcode hops hi =>
      -- A block has its `ret` within the program.
      have hret := (Array.getElem?_eq_some_iff.1 hops.right.head).1
      omega
    | @top i hi =>
      rw [hp] at hover
      rw [hp']
      omega
  · rw [hpreserves'.program, halike.length_eq]
    exact hops'.right
  · rw [hpreserves'.program]
    exact hend'

end Aligned

end StackLang.Tree

namespace StackLang

/-! ## Words -/

/-- Every word is bound at most once. -/
def Dictionary.Unique (d : Dictionary) : Prop := d.entries.Pairwise fun e e' => e.1 ≠ e'.1

namespace Dictionary.Unique

variable {d : Dictionary} (h : d.Unique)

include h

theorem define (word : Handle) (c : Code) : (d.define word c).Unique := by
  refine List.Pairwise.cons ?_ (h.filter _)
  intro e he
  have hne : e.1 ≠ word := by simpa using (List.mem_filter.1 he).2
  exact hne.symm

theorem defineAll (definitions : List (Handle × Code)) : (d.defineAll definitions).Unique := by
  induction definitions generalizing d with
  | nil => exact h
  | cons e definitions ih => exact ih (h.define e.1 e.2)

theorem find?_of_mem {e : Handle × Code} (he : e ∈ d.entries) : d.find? e.1 = some e.2 := by
  obtain ⟨entries⟩ := d
  simp only [Dictionary.find?]
  induction entries with
  | nil => cases he
  | cons e' entries ih =>
    obtain ⟨hne, hrest⟩ := List.pairwise_cons.1 h
    rw [List.lookup_cons]
    rcases List.mem_cons.1 he with rfl | he
    · simp
    · have hbeq : (e.1 == e'.1) = false := by simpa using (hne e he).symm
      rw [hbeq]
      exact ih hrest he

end Dictionary.Unique

theorem Machine.defineBuiltins_unique {m : Machine} (h : m.words.Unique) :
    m.defineBuiltins.words.Unique := by
  unfold Machine.defineBuiltins
  generalize Builtin.all.zipIdx = builtins
  induction builtins generalizing m with
  | nil => exact h
  | cons e builtins ih => exact ih (h.define _ _)

/-- A session binds no word twice. -/
theorem Session.after_unique {s : Session} (h : s.machine.words.Unique)
    (history : List (Budget × Bytes)) : (s.after history).machine.words.Unique := by
  induction history generalizing s with
  | nil => exact h
  | cons e history ih =>
    refine ih ?_
    rw [s.eval_words]
    exact h.defineAll _

theorem Session.new_unique (r : Registry) (settings : List Setting) :
    (new r settings).machine.words.Unique := by
  obtain ⟨a, b, hmachine⟩ := foldl_apply_machine settings { machine := { symbols := r } }
  refine Machine.defineBuiltins_unique ?_
  rw [hmachine]
  exact List.Pairwise.nil

/-! ## Data -/

/-- Machines with the same data up to names and addresses, and nothing pending. -/
structure Machine.SameData (B : Int → Int → Prop) (m m' : Machine) : Prop where
  distinct : m.symbols.Distinct
  distinct' : m'.symbols.Distinct
  stack : List.Forall₂ (Value.Alike B m.symbols m'.symbols) m.stack.items m'.stack.items
  words : List.Forall₂ (Entry.Alike B m.symbols m'.symbols) m.words.entries m'.words.entries
  stackLimit : m.stackLimit = m'.stackLimit
  callLimit : m.callLimit = m'.callLimit
  calls : m.calls.items = []
  calls' : m'.calls.items = []
  loops : m.loops = []
  loops' : m'.loops = []

/-- The machine `t` has the data of `m`, and perhaps another program and further names. -/
structure Machine.Carries (m t : Machine) : Prop where
  machine : t = { m with symbols := t.symbols, program := t.program, pc := t.pc }
  kept : m.symbols.KeptBy t.symbols
  distinct : m.symbols.Distinct → t.symbols.Distinct

theorem Machine.Carries.refl (m : Machine) : m.Carries m := ⟨rfl, .refl _, id⟩

namespace Machine.SameData

variable {B : Int → Int → Prop} {m m' : Machine}

theorem carries (h : m.SameData B m') {t t' : Machine} (ht : m.Carries t) (ht' : m'.Carries t')
    {B' : Int → Int → Prop} (hB : ∀ ⦃a a'⦄, B a a' → B' a a') : t.SameData B' t' := by
  rw [ht.machine, ht'.machine]
  exact ⟨ht.distinct h.distinct, ht'.distinct h.distinct',
    h.stack.imp fun _ _ hv => hv.imp hB ht.kept ht'.kept,
    h.words.imp fun _ _ he => he.imp hB ht.kept ht'.kept,
    h.stackLimit, h.callLimit, h.calls, h.calls', h.loops, h.loops'⟩

theorem parallel {χ : Chart} (h : m.SameData χ.starts m')
    (hmaps : χ.Maps m.symbols m'.symbols m.program.ops m'.program.ops)
    (hpc : χ.stands m.pc m'.pc) : m.Parallel χ m' where
  distinct := h.distinct
  distinct' := h.distinct'
  program := hmaps
  pc := hpc
  stack := h.stack
  calls := by
    rw [h.calls, h.calls']
    exact .nil
  loops := by
    rw [h.loops, h.loops']
    exact .nil
  words := h.words
  stackLimit := h.stackLimit
  callLimit := h.callLimit

end Machine.SameData

/-- When nothing is pending in the one machine, nothing is pending in the other. -/
theorem Machine.Parallel.sameData {χ : Chart} {m m' : Machine} (h : m.Parallel χ m')
    (hcalls : m.calls.items = []) (hloops : m.loops = []) : m.SameData χ.starts m' where
  distinct := h.distinct
  distinct' := h.distinct'
  stack := h.stack
  words := h.words
  stackLimit := h.stackLimit
  callLimit := h.callLimit
  calls := hcalls
  calls' := List.forall₂_nil_left_iff.1 (hcalls ▸ h.calls)
  loops := hloops
  loops' := List.forall₂_nil_left_iff.1 (hloops ▸ h.loops)

namespace Tree

theorem Refers.alike {T : Table} {c : Code} {k : Routine} (h : Refers T c k) :
    Code.Alike (SameBlock T T) c c := by
  cases h with
  | block hn => exact .block ⟨hn, hn⟩
  | builtin _ => exact .builtin _

theorem Denotes.alike {r : Registry} {T : Table} {v : Value} {x : Datum} (h : Denotes r T v x) :
    Value.Alike (SameBlock T T) r r v v := by
  cases h with
  | constant h => exact h.alike h
  | code h => exact .code h.alike

/-- A machine at rest refers to blocks of its table only. -/
theorem Resting.sameData {T : Table} {m : Machine} {σ : State} (h : Resting T m σ)
    (hunique : m.words.Unique) : m.SameData (SameBlock T T) m where
  distinct := h.sound.distinct
  distinct' := h.sound.distinct
  stack := by
    have hstack := h.sound.represents.stack
    generalize m.stack.items = vs at hstack ⊢
    generalize σ.stack = xs at hstack
    induction hstack with
    | nil => exact .nil
    | cons hv _ ih => exact .cons hv.alike ih
  words := by
    refine List.forall₂_same.2 fun e he => ?_
    have hfind := hunique.find?_of_mem he
    obtain ⟨w, hname⟩ := h.sound.represents.bound hfind
    have hrefers := h.sound.represents.words hname
    rw [hfind] at hrefers
    generalize σ.words w = known at hrefers
    cases hrefers with
    | some hrefers => exact ⟨⟨_, hname, hname⟩, hrefers.alike⟩
  stackLimit := rfl
  callLimit := rfl
  calls := h.calls
  calls' := h.calls
  loops := h.loops
  loops' := h.loops

end Tree

end StackLang
