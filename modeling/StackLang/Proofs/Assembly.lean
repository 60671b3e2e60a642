import StackLang.Proofs.Registry
import StackLang.Proofs.Tree

/-!
# The code of a tree

Which instructions stand for which items. A constant, a call or a block stands for one instruction,
and so does every operator but two; a block refers to code elsewhere by its number in a table.

* `Assembled r T p items code`: `code` is the code of `items` when it starts at the address `p`.
* `Filled r T p blocks code`: `code` has the code of some blocks one behind the other, from `p` on.
* Code stays what it is when the registry and the table grow (`Assembled.mono`), and when it is
  moved with its targets (`Assembled.relocate`).
-/

namespace StackLang.Tree

/-! ## Instructions for items -/

/-- A block in a program: where its code starts, and its items. -/
structure Placement where
  start : Nat
  body : List Item

/-- The blocks of a program, by number. -/
abbrev Table := List Placement

/-- The value `v` is the constant `c`. -/
inductive Stands (r : Registry) : Value → Constant → Prop
  | bool (b : Bool) : Stands r (.bool b) (.bool b)
  | int (n : Int64) : Stands r (.int n) (.int n)
  | sym {h : Handle} {s : Bytes} (hname : r.name? h = some (.ofWord s)) : Stands r (.sym h) (.sym s)
  | str {h : Handle} {s : Bytes} (hname : r.name? h = some (.ofString s)) :
    Stands r (.str h) (.str s)

def Primitive.op : Primitive → Op
  | define => .define
  | add => .add
  | arith f => .arith f
  | div => .div
  | compare f => .compare f
  | eq => .eq
  | drop => .drop
  | dup => .dup
  | swap => .swap
  | rot => .rot
  | unrot => .unrot
  | not => .not
  | connect f => .connect f

/-- The instructions `code` stand for an item at the address `p`. -/
inductive Encodes (r : Registry) (T : Table) (p : Nat) : Item → List Op → Prop
  | constant {v : Value} {c : Constant} (h : Stands r v c) :
    Encodes r T p (.atom (.constant c)) [.push v]
  | primitive (q : Primitive) : Encodes r T p (.atom (.primitive q)) [q.op]
  | exec : Encodes r T p (.atom .exec) [.exec]
  | choose : Encodes r T p (.atom .choose) [.select, .exec]
  | loop : Encodes r T p (.atom .loop) (Draft.loopCode p)
  | call {h : Handle} {word : Bytes} (hname : r.name? h = some (.ofWord word)) :
    Encodes r T p (.atom (.call word)) [.call h]
  | block {number start : Nat} {body : List Item} (h : T[number]? = some ⟨start, body⟩) :
    Encodes r T p (.block number body) [.push (.code (.block start))]

/-- The instructions `code` stand for a list of items from the address `p` on. -/
inductive Assembled (r : Registry) (T : Table) : Nat → List Item → List Op → Prop
  | nil {p : Nat} : Assembled r T p [] []
  | cons {p : Nat} {item : Item} {items : List Item} {code rest : List Op}
    (hitem : Encodes r T p item code) (hrest : Assembled r T (p + code.length) items rest) :
    Assembled r T p (item :: items) (code ++ rest)

/-- The instructions `code` are the given blocks, each with its `ret`, from the address `p` on. -/
inductive Filled (r : Registry) (T : Table) : Nat → Table → List Op → Prop
  | nil {p : Nat} : Filled r T p [] []
  | cons {p : Nat} {body : List Item} {code rest : List Op} {blocks : Table}
    (hbody : Assembled r T p body code) (hrest : Filled r T (p + code.length + 1) blocks rest) :
    Filled r T p (⟨p, body⟩ :: blocks) (code ++ .ret :: rest)

/-! ## Growth of registry and table -/

theorem Stands.mono {r r' : Registry} {v : Value} {c : Constant} (h : Stands r v c)
    (hr : r.KeptBy r') : Stands r' v c := by
  cases h with
  | bool b => exact .bool b
  | int n => exact .int n
  | sym hname => exact .sym (hr hname)
  | str hname => exact .str (hr hname)

theorem getElem?_mono {T T' : Table} (hT : T <+: T') {n : Nat} {b : Placement}
    (h : T[n]? = some b) : T'[n]? = some b := by
  obtain ⟨new, rfl⟩ := hT
  rw [List.getElem?_append_left (List.getElem?_eq_some_iff.1 h).1, h]

theorem Encodes.mono {r r' : Registry} {T T' : Table} {p : Nat} {item : Item} {code : List Op}
    (h : Encodes r T p item code) (hr : r.KeptBy r') (hT : T <+: T') :
    Encodes r' T' p item code := by
  cases h with
  | constant h => exact .constant (h.mono hr)
  | primitive q => exact .primitive q
  | exec => exact .exec
  | choose => exact .choose
  | loop => exact .loop
  | call hname => exact .call (hr hname)
  | block h => exact .block (getElem?_mono hT h)

theorem Assembled.mono {r r' : Registry} {T T' : Table} {p : Nat} {items : List Item}
    {code : List Op} (h : Assembled r T p items code) (hr : r.KeptBy r') (hT : T <+: T') :
    Assembled r' T' p items code := by
  induction h with
  | nil => exact .nil
  | cons hitem _ ih => exact .cons (hitem.mono hr hT) ih

theorem Filled.mono {r r' : Registry} {T T' blocks : Table} {p : Nat} {code : List Op}
    (h : Filled r T p blocks code) (hr : r.KeptBy r') (hT : T <+: T') :
    Filled r' T' p blocks code := by
  induction h with
  | nil => exact .nil
  | cons hbody _ ih => exact .cons (hbody.mono hr hT) ih

/-! ## Putting code together -/

theorem Assembled.append {r : Registry} {T : Table} {p : Nat} {items items' : List Item}
    {code code' : List Op} (h : Assembled r T p items code)
    (h' : Assembled r T (p + code.length) items' code') :
    Assembled r T p (items ++ items') (code ++ code') := by
  induction h with
  | nil => simpa using h'
  | @cons p item items code rest hitem _ ih =>
    rw [List.append_assoc]
    refine .cons hitem (ih ?_)
    rwa [List.length_append, ← Nat.add_assoc] at h'

theorem Encodes.assembled {r : Registry} {T : Table} {p : Nat} {item : Item} {code : List Op}
    (h : Encodes r T p item code) : Assembled r T p [item] code := by
  simpa using Assembled.cons h .nil

theorem Filled.concat {r : Registry} {T blocks : Table} {p : Nat} {body : List Item}
    {code code' : List Op} (h : Filled r T p blocks code)
    (hbody : Assembled r T (p + code.length) body code') :
    Filled r T p (blocks ++ [⟨p + code.length, body⟩]) (code ++ (code' ++ [.ret])) := by
  induction h with
  | nil => exact .cons hbody .nil
  | @cons p body₀ code₀ rest blocks hbody₀ _ ih =>
    have hlength : p + (code₀ ++ .ret :: rest).length = p + code₀.length + 1 + rest.length := by
      simp
      omega
    rw [hlength] at hbody ⊢
    simpa using Filled.cons hbody₀ (ih hbody)

/-! ## Moving code -/

theorem relocate_op (base : Int) (q : Primitive) : q.op.relocate base = q.op := by
  cases q <;> rfl

theorem relocate_loopCode (p base : Nat) :
    (Draft.loopCode p).map (Op.relocate base) = Draft.loopCode (p + base) := by
  simp only [Draft.loopCode, List.map_cons, List.map_nil, Op.relocate, Int.natCast_add]
  rw [Int.add_right_comm, Int.add_right_comm (p : Int) 1]

theorem Encodes.relocate {r : Registry} {T : Table} {p : Nat} {item : Item} {code : List Op}
    (h : Encodes r T p item code) (base : Nat) :
    Encodes r T (p + base) item (code.map (Op.relocate base)) := by
  cases h with
  | constant h => exact .constant h
  | primitive q => simpa [relocate_op] using Encodes.primitive q
  | exec => exact .exec
  | choose => exact .choose
  | loop => simpa [relocate_loopCode] using Encodes.loop
  | call hname => exact .call hname
  | block h => exact .block h

/-- Code that counts its addresses from its own start, put at `base`. -/
theorem Assembled.relocate {r : Registry} {T : Table} {p : Nat} {items : List Item}
    {code : List Op} (h : Assembled r T p items code) (base : Nat) :
    Assembled r T (p + base) items (code.map (Op.relocate base)) := by
  induction h with
  | nil => exact .nil
  | @cons p item items code rest hitem _ ih =>
    rw [List.map_append]
    refine .cons (hitem.relocate base) ?_
    rwa [List.length_map, Nat.add_right_comm]

/-! ## Single instructions -/

/-- Every instruction belongs to the code of an item. -/
theorem Assembled.locate {r : Registry} {T : Table} {p : Nat} {items : List Item}
    {code : List Op} (h : Assembled r T p items code) {i : Nat} {op : Op}
    (hi : code[i]? = some op) :
    ∃ item ∈ items, ∃ q own j, Encodes r T (p + q) item own ∧ own[j]? = some op ∧ i = q + j ∧
      q + own.length ≤ code.length := by
  induction h generalizing i with
  | nil => simp at hi
  | @cons p item items code rest hitem _ ih =>
    by_cases hlt : i < code.length
    · rw [List.getElem?_append_left hlt] at hi
      exact ⟨item, List.mem_cons_self, 0, code, i, hitem, hi, by omega, by simp⟩
    · rw [List.getElem?_append_right (by omega)] at hi
      obtain ⟨item', hmem, q, own, j, hown, hj, hij, hle⟩ := ih hi
      refine ⟨item', List.mem_cons_of_mem _ hmem, code.length + q, own, j, ?_, hj, by omega, ?_⟩
      · rwa [← Nat.add_assoc]
      · rw [List.length_append]
        omega

theorem Encodes.op_ne {r : Registry} {T : Table} {p : Nat} {item : Item} {code : List Op}
    (h : Encodes r T p item code) {op : Op} (hop : op ∈ code) :
    op ≠ .ret ∧ ∀ c, op ≠ .other c := by
  cases h with
  | primitive q => cases q <;> simp_all [Primitive.op]
  | loop =>
    simp only [Draft.loopCode, List.mem_cons, List.not_mem_nil, or_false] at hop
    rcases hop with rfl | rfl | rfl | rfl | rfl <;> simp
  | choose =>
    simp only [List.mem_cons, List.not_mem_nil, or_false] at hop
    rcases hop with rfl | rfl <;> simp
  | _ => simp_all

theorem Encodes.exit {r : Registry} {T : Table} {p : Nat} {item : Item} {code : List Op}
    (h : Encodes r T p item code) {j : Nat} {t : Int} (hj : code[j]? = some (.loopExit t)) :
    code.length = 5 ∧ j = 2 ∧ t = p + 5 := by
  cases h with
  | primitive q => cases q <;> simp [Primitive.op, List.getElem?_singleton] at hj
  | loop =>
    rcases j with _ | _ | _ | _ | _ | j <;> simp [Draft.loopCode] at hj ⊢
    exact hj.symm
  | choose => rcases j with _ | _ | j <;> simp at hj
  | _ => simp [List.getElem?_singleton] at hj

theorem Encodes.jump {r : Registry} {T : Table} {p : Nat} {item : Item} {code : List Op}
    (h : Encodes r T p item code) {j : Nat} {t : Int} (hj : code[j]? = some (.jump t)) :
    j = 4 ∧ t = p + 1 := by
  cases h with
  | primitive q => cases q <;> simp [Primitive.op, List.getElem?_singleton] at hj
  | loop =>
    rcases j with _ | _ | _ | _ | _ | j <;> simp [Draft.loopCode] at hj ⊢
    exact hj.symm
  | choose => rcases j with _ | _ | j <;> simp at hj
  | _ => simp [List.getElem?_singleton] at hj

/-- Only a block pushes code, and what it pushes is a reference to itself. -/
theorem Encodes.push_code {r : Registry} {T : Table} {p : Nat} {item : Item} {code : List Op}
    (h : Encodes r T p item code) {c : Code} (hc : .push (.code c) ∈ code) :
    ∃ number start body, item = .block number body ∧ T[number]? = some ⟨start, body⟩ ∧
      c = .block start := by
  cases h with
  | constant h => cases h <;> simp at hc
  | primitive q => cases q <;> simp [Primitive.op] at hc
  | loop => simp [Draft.loopCode] at hc
  | block h =>
    refine ⟨_, _, _, rfl, h, ?_⟩
    simpa using hc
  | _ => simp at hc

theorem Assembled.op_ne {r : Registry} {T : Table} {p : Nat} {items : List Item}
    {code : List Op} (h : Assembled r T p items code) {op : Op} (hop : op ∈ code) :
    op ≠ .ret ∧ ∀ c, op ≠ .other c := by
  obtain ⟨i, hi⟩ := List.mem_iff_getElem?.1 hop
  obtain ⟨item, -, q, c, j, hc, hj, -, -⟩ := h.locate hi
  exact hc.op_ne (List.mem_of_getElem? hj)

theorem Assembled.push_code {r : Registry} {T : Table} {p : Nat} {items : List Item}
    {code : List Op} (h : Assembled r T p items code) {c : Code}
    (hc : .push (.code c) ∈ code) :
    ∃ (number start : Nat) (body : List Item), .block number body ∈ items ∧
      T[number]? = some ⟨start, body⟩ ∧ c = .block start := by
  obtain ⟨i, hi⟩ := List.mem_iff_getElem?.1 hc
  obtain ⟨item, hitem, q, c', j, hc', hj, -, -⟩ := h.locate hi
  obtain ⟨number, start, body, rfl, hT, rfl⟩ := hc'.push_code (List.mem_of_getElem? hj)
  exact ⟨number, start, body, hitem, hT, rfl⟩

/-- An instruction of blocks ends one of them, or is in the code of its body. -/
theorem Filled.mem_cases {r : Registry} {T blocks : Table} {p : Nat} {code : List Op}
    (h : Filled r T p blocks code) {op : Op} (hop : op ∈ code) :
    op = .ret ∨ ∃ b ∈ blocks, ∃ c, Assembled r T b.start b.body c ∧ op ∈ c := by
  induction h with
  | nil => cases hop
  | cons hbody _ ih =>
    rcases List.mem_append.1 hop with hop | hop
    · exact Or.inr ⟨_, List.mem_cons_self, _, hbody, hop⟩
    · rcases List.mem_cons.1 hop with rfl | hop
      · exact Or.inl rfl
      · rcases ih hop with hret | ⟨b, hb, hbody⟩
        · exact Or.inl hret
        · exact Or.inr ⟨b, List.mem_cons_of_mem _ hb, hbody⟩

end StackLang.Tree
