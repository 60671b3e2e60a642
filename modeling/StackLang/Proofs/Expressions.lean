import Mathlib
import StackLang.Proofs.Invariants
import StackLang.Proofs.Loading
import StackLang.Proofs.Readback

/-!
# Arithmetic expressions

An expression over `+`, `-`, `*` and `/` is evaluated by its rendering with each operator behind its
operands. What it should give is said in integers: sums, differences and products are wrapped to 64
bits, and quotients are truncated. A division by 0 ends the evaluation; the first one counts.

* `Operator.toInt_compute`: the operators on machine words are those on integers.
* `Expr.reads_render`: the rendering compiles to one instruction for each node of the tree.
* `Machine.computes`: these instructions leave the value, or stop at the first division by 0.
* `Session.eval_expression`: so does the evaluation of the rendering.
-/

namespace StackLang

/-! ## Operators -/

inductive Operator where
  | add
  | sub
  | mul
  | div

namespace Operator

def word : Operator → Bytes
  | add => lit "+"
  | sub => lit "-"
  | mul => lit "*"
  | div => lit "/"

def op : Operator → Op
  | add => .add
  | sub => .arith .sub
  | mul => .arith .mul
  | div => .div

/-- The operation on integers between -2^63 and 2^63 - 1. -/
def apply : Operator → Int → Int → Int
  | add, a, b => (a + b).bmod (2 ^ 64)
  | sub, a, b => (a - b).bmod (2 ^ 64)
  | mul, a, b => (a * b).bmod (2 ^ 64)
  -- the one quotient that is out of range
  | div, a, b => if a = -2 ^ 63 ∧ b = -1 then -2 ^ 63 else a.tdiv b

/-- The operation on machine words. -/
def compute : Operator → Int64 → Int64 → Int64
  | add, a, b => a + b
  | sub, a, b => a - b
  | mul, a, b => a * b
  | div, a, b => a / b

/-- The divisions that the operation consists of, as dividend and divisor. -/
def divisions : Operator → Int → Int → List (Int × Int)
  | div, a, b => [(a, b)]
  | _, _, _ => []

theorem toInt_compute (f : Operator) (a b : Int64) :
    (f.compute a b).toInt = f.apply a.toInt b.toInt := by
  cases f with
  | add => exact Int64.toInt_add a b
  | sub => exact Int64.toInt_sub a b
  | mul => exact Int64.toInt_mul a b
  | div =>
    rw [compute, apply]
    split
    case isTrue h =>
      rw [Int64.toInt_div, h.1, h.2]
      decide
    case isFalse h =>
      by_cases ha : a = Int64.minValue
      · refine Int64.toInt_div_of_ne_right a b ?_
        rintro rfl
        exact h ⟨by rw [ha]; rfl, rfl⟩
      · exact Int64.toInt_div_of_ne_left a b ha

theorem spells_word (f : Operator) : Token.Spells .word f.word := by
  cases f with
  | add => exact Token.spells_ofFirst (b := 0x2b) (by decide) (by decide) (by decide +kernel)
  | sub => exact Token.spells_ofFirst (b := 0x2d) (by decide) (by decide) (by decide +kernel)
  | mul => exact Token.spells_ofFirst (b := 0x2a) (by decide) (by decide) (by decide +kernel)
  | div => exact Token.spells_ofFirst (b := 0x2f) (by decide) (by decide) (by decide +kernel)

theorem lookup_word (f : Operator) : Draft.reserved.lookup f.word = some [f.op] := by
  cases f <;> decide +kernel

theorem word_ne (f : Operator) :
    f.word ≠ lit "\x7b" ∧ f.word ≠ lit "\x7d" ∧ f.word ≠ lit "while" := by
  cases f <;> decide +kernel

end Operator

/-! ## Expressions -/

/-- A literal is an integer below 2^63. -/
inductive Expr where
  | literal (n : Nat) (h : n < 2 ^ 63)
  | binary (f : Operator) (a b : Expr)

namespace Expr

/-- The text with the operator behind its operands, and a space between all words. -/
def render : Expr → Bytes
  | literal n _ => Decimal.ofNat n
  | binary f a b => a.render ++ (lit " " ++ (b.render ++ (lit " " ++ f.word)))

def size : Expr → Nat
  | literal _ _ => 1
  | binary _ a b => a.size + b.size + 1

def code : Expr → List Op
  | literal n _ => [.push (.int (Int64.ofNat n))]
  | binary f a b => a.code ++ (b.code ++ [f.op])

def value : Expr → Int
  | literal n _ => n
  | binary f a b => f.apply a.value b.value

/-- The divisions of the expression in the order of their evaluation, as dividend and divisor. What
comes behind a division by 0 is not reached. -/
def divisions : Expr → List (Int × Int)
  | literal _ _ => []
  | binary f a b => a.divisions ++ (b.divisions ++ f.divisions a.value b.value)

/-- The first division by 0. -/
def broken? (e : Expr) : Option (Int × Int) := e.divisions.find? fun d => d.2 = 0

theorem length_code (e : Expr) : e.code.length = e.size := by
  induction e with
  | literal n h => rfl
  | binary f a b iha ihb => simp [code, size, iha, ihb, Nat.add_assoc]

/-- No instruction of an expression goes to an address. -/
theorem relocate_code (e : Expr) : ∀ op ∈ e.code, ∀ base, op.relocate base = op := by
  induction e with
  | literal n h => simp [code, Op.relocate]
  | binary f a b iha ihb =>
    have hf : ∀ base, f.op.relocate base = f.op := by cases f <;> exact fun _ => rfl
    simp only [code, List.mem_append, List.mem_singleton]
    rintro op (hop | hop | rfl)
    · exact iha op hop
    · exact ihb op hop
    · exact hf

theorem broken?_binary (f : Operator) (a b : Expr) :
    (binary f a b).broken? =
      (a.broken?.or (b.broken?.or ((f.divisions a.value b.value).find? fun d => d.2 = 0))) := by
  simp only [broken?, divisions, List.find?_append]

/-! ## Compiling -/

theorem ofInt_literal {n : Nat} (h : n < 2 ^ 63) :
    0 ≤ (Int64.ofNat n).toInt ∧ Decimal.ofInt (Int64.ofNat n).toInt = Decimal.ofNat n := by
  rw [Int64.toInt_ofNat_of_lt h]
  exact ⟨Int.natCast_nonneg n, rfl⟩

theorem spells_literal {n : Nat} (h : n < 2 ^ 63) : Token.Spells .number (Decimal.ofNat n) := by
  obtain ⟨hnonneg, htext⟩ := ofInt_literal h
  rw [← htext]
  exact Decimal.spells_ofInt hnonneg

theorem token_literal {n : Nat} (h : n < 2 ^ 63) (d : Draft) (p : Position) :
    d.token ⟨.number, Decimal.ofNat n, p⟩ = (d.emit [.push (.int (Int64.ofNat n))], none) := by
  obtain ⟨hnonneg, htext⟩ := ofInt_literal h
  rw [← htext]
  simp only [Draft.token, Decimal.int64?_ofInt hnonneg]

theorem token_operator (f : Operator) (d : Draft) (p : Position) :
    d.token ⟨.word, f.word, p⟩ = (d.emit [f.op], none) := by
  simp [Draft.token, Draft.word, f.lookup_word, f.word_ne]

/-- The rendering is read as the code, whatever gap is in front of it and whatever follows behind a
space. -/
theorem reads_render (e : Expr) {gap rest : Bytes} {d d' : Draft} (hgap : ∀ s, Token.Gap s gap)
    (hrest : ∀ b ∈ rest.head?, Byte.isSpace b = true) (h : (d.emit e.code).Reads rest d') :
    d.Reads (gap ++ (e.render ++ rest)) d' := by
  induction e generalizing gap rest d d' with
  | literal n hn =>
    exact .token (hgap _) (spells_literal hn) (Token.ends_of_space hrest) (token_literal hn d) h
  | binary f a b iha ihb =>
    have hspace : ∀ s, Token.Gap s (lit " ") := fun _ => .space rfl .nil
    simp only [code, ← Draft.emit_emit] at h
    simp only [render, List.append_assoc]
    have hf := Draft.Reads.token (hspace _) f.spells_word (Token.ends_of_space hrest)
      (token_operator f _) h
    exact iha hgap (Draft.isSpace_head _) (ihb hspace (Draft.isSpace_head _) hf)

theorem compile_render (e : Expr) (d : Draft) :
    ∃ d', d.compile e.render = (d', .ok ⟨d.ops ++ e.code.toArray, d.ops.size⟩) ∧
      d'.symbols = d.symbols := by
  refine Draft.compile_of_reads e.relocate_code ?_
  have hnil : ∀ s, Token.Gap s [] := fun _ => .nil
  have hend : ∀ b ∈ ([] : Bytes).head?, Byte.isSpace b = true := by simp
  simpa using e.reads_render hnil hend (Draft.reads_nil _)

end Expr

/-! ## Running -/

namespace Machine

/-- The machine `n` instructions further, with one more integer on its stack. -/
def holding (m : Machine) (n : Nat) (x : Int64) : Machine :=
  { m with stack := m.stack.push (.int x), pc := m.pc + n }

/-- An operator behind its operands comes to one more integer on the stack they started with. -/
theorem holding_result (m : Machine) (i j : Nat) (x y z : Int64) :
    { (m.holding i x).holding j y with
      stack := m.stack.push (.int z)
      pc := ((m.holding i x).holding j y).pc + 1 } = m.holding (i + j + 1) z := by
  simp [holding, Int.add_assoc]

/-- The machine goes through the code of the expression and has its value on the stack, or it stops
at the first division by 0. -/
inductive Computes (m : Machine) (e : Expr) : Prop
  | value (x : Int64) (hdefined : e.broken? = none) (hx : x.toInt = e.value)
    (hruns : m.Runs e.size [] (m.holding e.size x)) : Computes m e
  | broken {a : Int} {n : Nat} {m₁ m₂ : Machine} (x : Int64) (hbroken : e.broken? = some (a, 0))
    (hx : x.toInt = a) (hle : n ≤ e.size) (hruns : m.Runs n [] m₁)
    (hfault : m₁.step = .fault (.divideByZero x) m₂) : Computes m e

section

variable {m : Machine} {p : Nat} (hpc : m.pc = p) (hlimit : m.stackLimit = 0)

include hpc hlimit

theorem step_literal {x : Int64} (hop : m.program.ops[p]? = some (.push (.int x))) :
    m.step = .next (m.holding 1 x) := by
  have hfull : m.stack.full m.stackLimit = false := by rw [hlimit]; rfl
  rw [step_of_fetch hpc hop, Op.run, push, hfull]
  rfl

/-- An operator puts its result in the place of its operands. -/
theorem step_operator {f : Operator} {s : Stack Value} {x y : Int64}
    (hstack : m.stack = (s.push (.int x)).push (.int y)) (hop : m.program.ops[p]? = some f.op)
    (hdefined : (f.divisions x.toInt y.toInt).find? (fun d => d.2 = 0) = none) :
    m.step = .next { m with stack := s.push (.int (f.compute x y)), pc := m.pc + 1 } := by
  have hdrop : m.stack.drop 2 = s := Stack.eq_of_items (by simp [hstack])
  have hitems : m.stack.items = .int y :: .int x :: s.items := by simp [hstack]
  have hpush : ∀ z : Int64, (m.drop 2).push (.int z) =
      .next { m with stack := s.push (.int z), pc := m.pc + 1 } := by
    intro z
    have hfull : s.full m.stackLimit = false := by rw [hlimit]; rfl
    simp only [push, drop, hdrop, hfull]
    rfl
  rw [step_of_fetch hpc hop]
  cases f with
  | add => simp only [Operator.op, Op.run, Op.runAdd, hitems, hpush, Operator.compute]
  | sub => simp only [Operator.op, Op.run, popIntegers, hitems, hpush, Operator.compute,
      Arithmetic.apply]
  | mul => simp only [Operator.op, Op.run, popIntegers, hitems, hpush, Operator.compute,
      Arithmetic.apply]
  | div =>
    have hy : y ≠ 0 := by
      rintro rfl
      simp [Operator.divisions] at hdefined
    simp only [Operator.op, Op.run, popIntegers, hitems, hpush, Operator.compute, if_neg hy]

omit hlimit in
/-- A division by 0 stops the machine. -/
theorem step_broken {f : Operator} {s : Stack Value} {x y : Int64} {d : Int × Int}
    (hstack : m.stack = (s.push (.int x)).push (.int y)) (hop : m.program.ops[p]? = some f.op)
    (hbroken : (f.divisions x.toInt y.toInt).find? (fun d => d.2 = 0) = some d) :
    m.step = .fault (.divideByZero x) (m.drop 2) ∧ d = (x.toInt, 0) := by
  have hitems : m.stack.items = .int y :: .int x :: s.items := by simp [hstack]
  cases f with
  | add => cases hbroken
  | sub => cases hbroken
  | mul => cases hbroken
  | div =>
    obtain ⟨hzero, rfl⟩ : y.toInt = 0 ∧ (x.toInt, y.toInt) = d := by
      simpa [Operator.divisions] using hbroken
    have hy : y = 0 := Int64.toInt_inj.1 hzero
    rw [step_of_fetch hpc hop]
    simp only [Operator.op, Op.run, popIntegers, hitems, if_pos hy, hzero, and_self]

/-- By induction over the expression: the operands leave their values on top of the stack, which is
where the operator finds them. -/
theorem computes (e : Expr) (hops : Tree.Holds m.program.ops p e.code) : m.Computes e := by
  induction e generalizing m p with
  | literal n h =>
    exact .value (Int64.ofNat n) rfl (Int64.toInt_ofNat_of_lt h)
      (.one (step_literal hpc hlimit hops.head))
  | binary f a b iha ihb =>
    have hbroken := Expr.broken?_binary f a b
    cases iha hpc hlimit hops.left with
    | broken x ha hx hle hruns hfault =>
      rw [ha] at hbroken
      exact .broken x hbroken hx (by simp only [Expr.size]; omega) hruns hfault
    | value x ha hx hruns =>
      rw [ha] at hbroken
      have hpc₁ : (m.holding a.size x).pc = (p + a.size : Nat) := by simp [holding, hpc]
      have hops₁ := a.length_code ▸ hops.right
      cases ihb (m := m.holding a.size x) hpc₁ hlimit hops₁.left with
      | broken y hb hy hle hruns' hfault =>
        rw [hb] at hbroken
        exact .broken y hbroken hy (by simp only [Expr.size]; omega) (hruns.trans hruns') hfault
      | value y hb hy hruns' =>
        rw [hb, ← hx, ← hy] at hbroken
        have hruns₂ := hruns.trans hruns'
        have hpc₂ : ((m.holding a.size x).holding b.size y).pc = (p + a.size + b.size : Nat) := by
          simp [holding, hpc]
        have hop := (b.length_code ▸ hops₁.right).head
        cases hown : (f.divisions x.toInt y.toInt).find? (fun d => d.2 = 0) with
        | none =>
          rw [hown] at hbroken
          have hstep := step_operator hpc₂ hlimit rfl hop hown
          refine .value (f.compute x y) hbroken ?_ ?_
          · rw [f.toInt_compute, hx, hy, Expr.value]
          · rw [Expr.size, ← holding_result]
            exact hruns₂.trans (.one hstep)
        | some d =>
          rw [hown] at hbroken
          obtain ⟨hstep, rfl⟩ := step_broken hpc₂ rfl hop hown
          exact .broken x hbroken rfl (by simp only [Expr.size]; omega) hruns₂ hstep

end

end Machine

/-! ## Evaluating -/

/-- What evaluating the expression should come to: its value alone on the stack, or an error that
names the dividend of the first division by 0. -/
inductive Expr.Yields (e : Expr) : List Value → Option Error → Prop
  | value (x : Int64) (hdefined : e.broken? = none) (hx : x.toInt = e.value) :
    Yields e [.int x] none
  | broken {a : Int} (x : Int64) (hbroken : e.broken? = some (a, 0)) (hx : x.toInt = a) :
    Yields e [] (some (.fault (.divideByZero x)))

namespace Session

/-- A fresh session without a limit on its stack that has the time for an expression evaluates its
rendering to the value of the expression, unless there is a division by 0. Then it fails, and the
error names the dividend of the first one. -/
theorem eval_expression (e : Expr) {r : Registry} {settings : List Setting}
    (hs : (new r settings).Reliable) (hlimit : (new r settings).machine.stackLimit = 0)
    (budget : Budget) (hpolls : e.size ≤ budget.polls) :
    ∃ t err, (new r settings).eval budget e.render = (t, err) ∧ e.Yields t.machine.values err := by
  obtain ⟨r', words, a, b, hnew⟩ := new_machine r settings
  generalize new r settings = s at hs hlimit hnew ⊢
  obtain ⟨d, hcompile, -⟩ :=
    e.compile_render { symbols := s.machine.symbols, ops := s.machine.program.ops }
  obtain ⟨t, hload, ht, hmachine⟩ := load_of_compile hs hcompile
  have hops : Tree.Holds t.machine.program.ops s.machine.program.ops.size e.code := by
    have happend : t.machine.program.ops.toList =
        s.machine.program.ops.toList ++ (e.code ++ []) := by simp [hmachine]
    exact Array.length_toList ▸ Tree.holds_of_append happend
  have hcomputes := Machine.computes (by rw [hmachine]) (by rw [hmachine]; exact hlimit) e hops
  cases hcomputes with
  | value x hdefined hx hruns =>
    have hover : (t.machine.holding e.size x).running = false := by
      simp [Machine.running, Machine.holding, hmachine, e.length_code]
    obtain ⟨u, hu, -, hfinish⟩ := finish_done ht hruns hover
    have hvalues : u.machine.values = [.int x] := by
      simp [Machine.values, Machine.holding, hu, hmachine, hnew]
    refine ⟨u, none, ?_, hvalues ▸ .value x hdefined hx⟩
    rw [eval_of_load hload, hfinish _ _ hpolls]
    rfl
  | broken x hbroken hx hle hruns hfault =>
    obtain ⟨u, hu, -, hfinish⟩ := finish_failed ht hruns hfault
    refine ⟨u.reset, _, ?_, .broken x hbroken hx⟩
    rw [eval_of_load hload, hfinish _ _ (Nat.le_trans hle hpolls), conclude_some rfl]

end Session

/-- The least integer divided by -1. -/
def Expr.leastByMinusOne : Expr :=
  .binary .div
    (.binary .sub (.binary .sub (.literal 0 (by decide)) (.literal 9223372036854775807 (by decide)))
      (.literal 1 (by decide)))
    (.binary .sub (.literal 0 (by decide)) (.literal 1 (by decide)))

/-- `1 + (5 - 7) / (2 - 2) * (4 / 0)` -/
def Expr.twiceByZero : Expr :=
  .binary .add (.literal 1 (by decide))
    (.binary .mul
      (.binary .div (.binary .sub (.literal 5 (by decide)) (.literal 7 (by decide)))
        (.binary .sub (.literal 2 (by decide)) (.literal 2 (by decide))))
      (.binary .div (.literal 4 (by decide)) (.literal 0 (by decide))))

/-- The quotient that is out of range, and two divisions by 0 of which the first counts. -/
theorem Session.eval_expression_edges : ∃ t t',
    (new (.of []) []).eval { polls := 9 } (lit "0 9223372036854775807 - 1 - 0 1 - /") = (t, none) ∧
    t.machine.values = [.int Int64.minValue] ∧
    (new (.of []) []).eval { polls := 13 } (lit "1 5 7 - 2 2 - / 4 0 / * +") =
      (t', some (.fault (.divideByZero (-2)))) ∧
    (Fault.divideByZero (-2)).message = lit "stack.divide_by_zero: -2 / 0" := by
  have hs : (new (.of []) []).Reliable := ⟨by simp [new], by simp [new], by simp [new]⟩
  have hlimit : (new (.of []) []).machine.stackLimit = 0 := by cbv
  have hrender : (Expr.leastByMinusOne.render, Expr.twiceByZero.render) =
      (lit "0 9223372036854775807 - 1 - 0 1 - /", lit "1 5 7 - 2 2 - / 4 0 / * +") := by cbv
  have hleast : Expr.leastByMinusOne.broken? = none ∧ Expr.leastByMinusOne.value = -2 ^ 63 := by
    decide +kernel
  have htwice : Expr.twiceByZero.broken? = some (-2, 0) := by decide +kernel
  obtain ⟨hrender, hrender'⟩ := Prod.mk.inj hrender
  obtain ⟨t, err, heval, hyields⟩ :=
    eval_expression Expr.leastByMinusOne hs hlimit { polls := 9 } (by decide)
  obtain ⟨t', err', heval', hyields'⟩ :=
    eval_expression Expr.twiceByZero hs hlimit { polls := 13 } (by decide)
  rw [hrender] at heval
  rw [hrender'] at heval'
  obtain ⟨hvalues, rfl⟩ : t.machine.values = [.int Int64.minValue] ∧ err = none := by
    generalize t.machine.values = vs at hyields
    cases hyields with
    | value x _ hx =>
      have hmin : x.toInt = Int64.minValue.toInt := by rw [hx, hleast.2]; rfl
      exact ⟨by rw [Int64.toInt_inj.1 hmin], rfl⟩
    | broken x hbroken _ =>
      rw [hleast.1] at hbroken
      cases hbroken
  obtain rfl : err' = some (.fault (.divideByZero (-2))) := by
    generalize t'.machine.values = vs at hyields'
    cases hyields' with
    | value x hdefined _ =>
      rw [htwice] at hdefined
      cases hdefined
    | broken x hbroken hx =>
      rw [htwice] at hbroken
      cases hbroken
      have hminus : x.toInt = (-2 : Int64).toInt := hx
      rw [Int64.toInt_inj.1 hminus]
  exact ⟨t, t', heval, hvalues, heval', by cbv⟩

end StackLang
