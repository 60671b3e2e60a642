import StackLang.Proofs.Twins

/-!
# Code can be put anywhere

What a source compiles to does not depend on the code in front of it. Addresses get into code at two
different times: a reference to a block when the block is closed, and the target of a jump when the
code around it is finished. Behind other code, both come out larger by the length of that code.

* `Op.shift`: an instruction with all its addresses moved; `Op.shiftPushed`: one of a block that is
  not finished, where targets count from the start of the block still.
* `Draft.onto`: a draft as it would be behind other code.
* `Draft.compile_onto`: a draft compiles a source to what the empty one does, but for addresses.
* `Draft.compile_shifts`: the same for any two registries.
-/

namespace StackLang

/-! ## Instructions -/

/-- The code when `n` instructions are put in front of the program. -/
def Code.shift (n : Int) : Code → Code
  | .block a => .block (a + n)
  | c => c

def Value.shift (n : Int) : Value → Value
  | .code c => .code (c.shift n)
  | v => v

namespace Op

/-- The instruction with `n` added to the address of a block that it pushes. -/
def shiftPushed (n : Int) : Op → Op
  | push v => push (v.shift n)
  | op => op

/-- The instruction with `n` added to all its addresses. -/
def shift (n : Int) (op : Op) : Op := (op.shiftPushed n).relocate n

/-- Moving a block that is finished at `k` is finishing it at `n + k`. -/
theorem shift_relocate (n k : Int) (op : Op) :
    (op.relocate k).shift n = (op.shiftPushed n).relocate (n + k) := by
  cases op with
  | loopExit a =>
    simp only [shift, shiftPushed, relocate, loopExit.injEq]
    omega
  | jump a =>
    simp only [shift, shiftPushed, relocate, jump.injEq]
    omega
  | _ => rfl

theorem shift_alike {r r' : Registry} {op op' : Op} (h : Op.Alike .same r r' op op') (n : Int) :
    Op.Alike .same r r' (op.shift n) (op'.shift n) := by
  refine Draft.relocate_alike ?_ n
  cases h with
  | push hv =>
    refine .push ?_
    cases hv with
    | code hc =>
      cases hc with
      | block ha => exact .code (.block (congrArg (· + n) ha))
      | builtin i => exact .code (.builtin i)
    | bool b => exact .bool b
    | int i => exact .int i
    | sym hname => exact .sym hname
    | str hname => exact .str hname
  | call hname => exact .call hname
  | loopExit h => exact .loopExit h
  | jump h => exact .jump h
  | @plain op hplain =>
    have hsame : op.shiftPushed n = op := by
      cases op with
      | push v => cases hplain
      | _ => rfl
    rw [hsame]
    exact .plain hplain

end Op

/-- Code that is the same up to the numbers of names still is when it is moved. -/
theorem SameCode.shift {r r' : Registry} {code code' : List Op} (h : SameCode r r' code code')
    (n : Int) : SameCode r r' (code.map (Op.shift n)) (code'.map (Op.shift n)) :=
  List.forall₂_map_left_iff.2 (List.forall₂_map_right_iff.2
    (h.imp fun _ _ hop => Op.shift_alike hop n))

/-- The program behind other code. -/
def Program.onto (base : Array Op) (p : Program) : Program :=
  ⟨base ++ p.ops.map (Op.shift base.size), base.size + p.entry⟩

namespace Draft

/-! ## Drafts -/

/-- The draft as it would be behind other code. -/
def onto (base : Array Op) (d : Draft) : Draft where
  symbols := d.symbols
  ops := base ++ d.ops.map (Op.shift base.size)
  current := d.current.map (Op.shiftPushed base.size)
  braces := d.braces.map fun b => ⟨b.position, b.before.map (Op.shiftPushed base.size)⟩
  layouts := d.layouts.map fun l => ⟨base.size + l.start, l.length, l.symbols⟩

section

variable (base : Array Op) (d : Draft)

theorem onto_size_ops : (d.onto base).ops.size = base.size + d.ops.size := by
  rw [onto, Array.size_append, Array.size_map]

theorem onto_size_current : (d.onto base).current.size = d.current.size := by
  rw [onto, Array.size_map]

theorem emit_onto (code : List Op) :
    (d.onto base).emit (code.map (Op.shiftPushed base.size)) = (d.emit code).onto base := by
  simp only [emit, onto, mk.injEq, true_and, and_true]
  apply Array.toList_inj.1
  simp only [Array.toList_appendList, Array.toList_map, List.map_append]

theorem append_onto (block : Array Op) :
    (d.onto base).append (block.map (Op.shiftPushed base.size)) = (d.append block).onto base := by
  have hmoved : (block.map (Op.relocate d.ops.size)).map (Op.shift base.size) =
      (block.map (Op.shiftPushed base.size)).map (Op.relocate (base.size + d.ops.size : Nat)) := by
    rw [Array.map_map, Array.map_map]
    apply congrArg (Array.map · block)
    funext op
    simpa using op.shift_relocate base.size d.ops.size
  have hops : base ++ d.ops.map (Op.shift base.size) ++
      (block.map (Op.shiftPushed base.size)).map (Op.relocate (base.size + d.ops.size : Nat)) =
      base ++ (d.ops ++ block.map (Op.relocate d.ops.size)).map (Op.shift base.size) := by
    rw [Array.map_append, hmoved, Array.append_assoc]
  have hsize := d.onto_size_ops base
  simp only [append, hsize]
  simp only [onto, hops, Array.size_map, List.map_cons]

/-! ## Tokens -/

/-- Code of a fixed word mentions no block. -/
theorem shiftPushed_of_closed {code : List Op} (h : code.all isClosed) (n : Int) :
    code.map (Op.shiftPushed n) = code := by
  refine (List.map_congr_left fun op hop => ?_).trans (List.map_id code)
  have hclosed := List.all_eq_true.1 h op hop
  unfold isClosed at hclosed
  split at hclosed
  · rfl
  · cases op with
    | push v => cases hclosed
    | _ => rfl

theorem emitName_onto (name : Name) {op : Handle → Op}
    (hop : ∀ h, (op h).shiftPushed base.size = op h) :
    (d.onto base).emitName name op = (d.emitName name op).onto base := by
  have hemit := emit_onto base { d with symbols := (d.symbols.intern name).1 }
    [op (d.symbols.intern name).2]
  rw [List.map_cons, List.map_nil, hop] at hemit
  exact hemit

theorem closeBlock_onto (p : Position) :
    (d.onto base).closeBlock p = (d.closeBlock p).map (onto base) id := by
  unfold closeBlock
  cases hbraces : d.braces with
  | nil => simp [onto, hbraces]
  | cons brace braces =>
    let around : Draft := { d with current := brace.before, braces }
    -- The block ends in `ret`, which is the same everywhere, and its address is the larger one.
    have hblock : (d.onto base).current.push .ret =
        (d.current.push .ret).map (Op.shiftPushed base.size) := by
      rw [Array.map_push]
      rfl
    have hpush : [Op.push (.code (.block (d.onto base).ops.size))] =
        [Op.push (.code (.block d.ops.size))].map (Op.shiftPushed base.size) := by
      rw [onto_size_ops, Int.natCast_add, Int.add_comm]
      rfl
    have hbraces' : (d.onto base).braces =
        ⟨brace.position, brace.before.map (Op.shiftPushed base.size)⟩ ::
          (around.onto base).braces := by
      rw [onto, hbraces]
      rfl
    simp only [hbraces']
    refine congrArg (·, none) ?_
    calc _ = ((around.onto base).emit [.push (.code (.block (d.onto base).ops.size))]).append
          ((d.onto base).current.push .ret) := rfl
      _ = ((around.emit [.push (.code (.block d.ops.size))]).onto base).append
          ((d.current.push .ret).map (Op.shiftPushed base.size)) := by
        rw [hpush, hblock, emit_onto]
      _ = ((around.emit [.push (.code (.block d.ops.size))]).append (d.current.push .ret)).onto
          base := append_onto base _ _

theorem word_onto (p : Position) (s : Bytes) :
    (d.onto base).word p s = (d.word p s).map (onto base) id := by
  unfold word
  by_cases hopen : s = lit "\x7b"
  · rw [if_pos hopen, if_pos hopen]
    simp [openBlock, onto]
  rw [if_neg hopen, if_neg hopen]
  by_cases hclose : s = lit "\x7d"
  · rw [if_pos hclose, if_pos hclose]
    exact d.closeBlock_onto base p
  rw [if_neg hclose, if_neg hclose]
  by_cases hloop : s = lit "while"
  · rw [if_pos hloop, if_pos hloop, onto_size_current]
    exact congrArg (·, none) (d.emit_onto base (loopCode d.current.size))
  rw [if_neg hloop, if_neg hloop]
  cases hcode : reserved.lookup s with
  | some code =>
    have hemit := d.emit_onto base code
    rw [shiftPushed_of_closed (reserved_closed hcode)] at hemit
    exact congrArg (·, none) hemit
  | none => exact congrArg (·, none) (d.emitName_onto base _ fun _ => rfl)

/-- A token is taken or refused behind other code as it is without. -/
theorem token_onto (t : Token) :
    (d.onto base).token t = (d.token t).map (onto base) id := by
  unfold token
  cases t.kind with
  | number =>
    cases Decimal.int64? t.text with
    | some n => exact congrArg (·, none) (d.emit_onto base [.push (.int n)])
    | none => rfl
  | string => exact congrArg (·, none) (d.emitName_onto base _ fun _ => rfl)
  | symbol => exact congrArg (·, none) (d.emitName_onto base _ fun _ => rfl)
  | word => exact d.word_onto base t.position t.text
  | other tag => rfl

theorem tokens_onto (ts : List Token) :
    (d.onto base).tokens ts = (d.tokens ts).map (onto base) id := by
  induction ts generalizing d with
  | nil => rfl
  | cons t ts ih =>
    rw [tokens, tokens, token_onto]
    generalize d.token t = taken
    obtain ⟨d', _ | e⟩ := taken
    · exact ih d'
    · rfl

theorem endError?_onto (ts : Tokens) : (d.onto base).endError? ts = d.endError? ts := by
  unfold endError? onto
  cases ts.unclosed with
  | some p => rfl
  | none => cases d.braces <;> rfl

end

/-! ## Sources -/

/-- A draft compiles a source to what an empty one that knows the same names compiles it to, behind
the code that it has. -/
theorem compile_onto (d : Draft) (src : Bytes) :
    d.compile src = (Draft.compile { symbols := d.symbols } src).map (onto d.ops)
      (Except.map (Program.onto d.ops)) := by
  have hstart : ({ d with current := #[], braces := [], layouts := [] } : Draft) =
      onto d.ops { symbols := d.symbols } := by
    simp [onto]
  unfold compile
  simp only [hstart, tokens_onto]
  generalize Draft.tokens { symbols := d.symbols } (tokenize src).list = taken
  obtain ⟨d', _ | e⟩ := taken
  · simp only [Prod.map, id, endError?_onto]
    cases d'.endError? (tokenize src) with
    | some e => rfl
    | none =>
      have happend : (d'.onto d.ops).append (d'.onto d.ops).current =
          (d'.append d'.current).onto d.ops := d'.append_onto d.ops d'.current
      simp only [happend, onto_size_ops]
      rfl
  · rfl

/-- Whatever code is in front of a source and whatever names are known, the source compiles if and
only if it does on its own, and fails with the same error otherwise. If it compiles, its code is the
one that it has on its own, with the length of the code in front added to all addresses. Names may
have other numbers, unless the same names were known. -/
theorem compile_shifts (d : Draft) (r : Registry) (src : Bytes) :
    match (StackLang.compile r src).2 with
    | .error e => (d.compile src).2 = .error e
    | .ok p => ∃ code : Array Op,
        (d.compile src).2 = .ok ⟨d.ops ++ code, d.ops.size + p.entry⟩ ∧
        SameCode (StackLang.compile r src).1 (d.compile src).1.symbols
          (p.ops.toList.map (Op.shift d.ops.size)) code.toList ∧
        (r = d.symbols → code = p.ops.map (Op.shift d.ops.size)) := by
  have hfresh : StackLang.compile r src = ((Draft.compile { symbols := r } src).1.symbols,
      (Draft.compile { symbols := r } src).2) := rfl
  have hsame : r = d.symbols →
      Draft.compile { symbols := r } src = Draft.compile { symbols := d.symbols } src := by
    rintro rfl
    rfl
  obtain ⟨-, hresult⟩ := @compile_twins { symbols := r } { symbols := d.symbols } .nil src
  rw [hfresh, d.compile_onto src]
  generalize Draft.compile { symbols := r } src = fresh at hsame hresult ⊢
  generalize Draft.compile { symbols := d.symbols } src = named at hsame hresult ⊢
  obtain ⟨d₁, result⟩ := fresh
  obtain ⟨d₂, result'⟩ := named
  cases hresult with
  | error e => rfl
  | @ok p p' hcode hentry =>
    refine ⟨p'.ops.map (Op.shift d.ops.size), ?_, ?_, ?_⟩
    · simp only [Prod.map, hentry]
      rfl
    · rw [Array.toList_map]
      exact hcode.shift d.ops.size
    · intro heq
      cases hsame heq
      rfl

end Draft

end StackLang
