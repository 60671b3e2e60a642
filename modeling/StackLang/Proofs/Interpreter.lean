import StackLang.Proofs.Tree
import StackLang.Machine.Step
import StackLang.Text.Terminal

/-!
# Running trees

The meaning of a tree of items, without instructions, addresses, return addresses or loop frames. A
block is a value that carries its items; to run it is to run them, and what follows goes on when
they are done. Symbols and strings are texts, and words are looked up by their text.

Nesting and repetition are bounded by `fuel`. A run that needs more is cut off (`Outcome.timeout`),
which is neither success nor failure; more fuel changes no other outcome (`Evaluates.unique`).
-/

namespace StackLang.Tree

/-! ## Values and states -/

/-- Something to run. -/
inductive Routine where
  /-- An occurrence of a block, by its number, with its items. -/
  | block (number : Nat) (body : List Item)
  | builtin (b : Builtin)

inductive Datum where
  | constant (c : Constant)
  | code (r : Routine)

/-- Blocks are the same if they are the same occurrence. -/
def Routine.same : Routine → Routine → Bool
  | block n _, block n' _ => n = n'
  | builtin b, builtin b' => b = b'
  | _, _ => false

namespace Datum

abbrev bool (b : Bool) : Datum := constant (.bool b)

abbrev int (n : Int64) : Datum := constant (.int n)

def same : Datum → Datum → Bool
  | constant c, constant c' => c = c'
  | code r, code r' => r.same r'
  | _, _ => false

def kind : Datum → Kind
  | constant (.bool b) => .bool b
  | constant (.int _) => .int
  | constant (.sym _) => .sym
  | constant (.str _) => .str
  | code _ => .code

/-- Everything but `false` counts as true. -/
def truth : Datum → Bool
  | constant (.bool b) => b
  | _ => true

/-- The text of a datum. A block is written as the label of its number. -/
def format (label : Nat → Int) (style : Value.StringStyle) : Datum → Bytes
  | constant (.bool false) => lit "false"
  | constant (.bool true) => lit "true"
  | constant (.int n) => Decimal.ofInt n.toInt
  | constant (.sym s) => Byte.colon :: s
  | constant (.str s) =>
    match style with
    | .raw => s
    | .quoted => Literal.quote s
  | code (.block n _) => lit "\x7b@" ++ Decimal.ofInt (label n) ++ lit "\x7d"
  | code (.builtin b) => lit "<" ++ b.name ++ lit ">"

end Datum

structure State where
  /-- The values, top first. -/
  stack : List Datum := []
  /-- What each defined word runs. -/
  words : Bytes → Option Routine
  /-- The text written so far, as the output gets it. -/
  output : Bytes := []

namespace State

def push (σ : State) (x : Datum) : State := { σ with stack := x :: σ.stack }

def define (σ : State) (word : Bytes) (r : Routine) : State :=
  { σ with words := fun w => if w = word then some r else σ.words w }

def write (σ : State) (text : Bytes) : State :=
  { σ with output := σ.output ++ Terminal.encode text }

def underflow (σ : State) (word : String) (needed : Nat) : Fault :=
  .underflow word needed σ.stack.length

/-- The stack from bottom to top, in brackets. -/
def formatStack (label : Nat → Int) (σ : State) : Bytes :=
  lit "[" ++ Bytes.join (lit " ") (σ.stack.reverse.map (Datum.format label .quoted)) ++ lit "]"

/-- Replace the two integers on top by the result of a function. -/
def integers (σ : State) (word : String) (f : Int64 → Int64 → Except Fault Datum) :
    Except Fault State :=
  match σ.stack with
  | b :: a :: rest =>
    match a, b with
    | .constant (.int a), .constant (.int b) => (f a b).map fun x => { σ with stack := x :: rest }
    | a, b => .error (.mismatch (.integers word a.kind b.kind))
  | _ => .error (σ.underflow word 2)

end State

/-- What an operator that runs no code does. -/
def Primitive.apply (σ : State) : Primitive → Except Fault State
  | define =>
    match σ.stack with
    | s :: c :: rest =>
      match c, s with
      | .code r, .constant (.sym word) => .ok ({ σ with stack := rest }.define word r)
      | c, s => .error (.mismatch (.define c.kind s.kind))
    | _ => .error (σ.underflow "def" 2)
  | add =>
    match σ.stack with
    | b :: a :: rest =>
      match a, b with
      | .constant (.int a), .constant (.int b) => .ok { σ with stack := .int (a + b) :: rest }
      | .constant (.str a), .constant (.str b) =>
        .ok { σ with stack := .constant (.str (a ++ b)) :: rest }
      | a, b => .error (.mismatch (.add a.kind b.kind))
    | _ => .error (σ.underflow "+" 2)
  | arith f => σ.integers f.word fun a b => .ok (.int (f.apply a b))
  | div => σ.integers "/" fun a b => if b = 0 then .error (.divideByZero a) else .ok (.int (a / b))
  | compare f => σ.integers f.word fun a b => .ok (.bool (f.apply a b))
  | eq =>
    match σ.stack with
    | b :: a :: rest => .ok { σ with stack := .bool (a.same b) :: rest }
    | _ => .error (σ.underflow "=" 2)
  | drop =>
    match σ.stack with
    | _ :: rest => .ok { σ with stack := rest }
    | [] => .error (σ.underflow "." 1)
  | dup =>
    match σ.stack with
    | x :: rest => .ok { σ with stack := x :: x :: rest }
    | [] => .error (σ.underflow "dup" 1)
  | swap =>
    match σ.stack with
    | b :: a :: rest => .ok { σ with stack := a :: b :: rest }
    | _ => .error (σ.underflow "swap" 2)
  | rot =>
    match σ.stack with
    | c :: b :: a :: rest => .ok { σ with stack := a :: c :: b :: rest }
    | _ => .error (σ.underflow "rot" 3)
  | unrot =>
    match σ.stack with
    | c :: b :: a :: rest => .ok { σ with stack := b :: a :: c :: rest }
    | _ => .error (σ.underflow "-rot" 3)
  | not =>
    match σ.stack with
    | x :: rest => .ok { σ with stack := .bool (!x.truth) :: rest }
    | [] => .error (σ.underflow "not" 1)
  | connect f =>
    match σ.stack with
    | b :: a :: rest => .ok { σ with stack := .bool (f.apply a.truth b.truth) :: rest }
    | _ => .error (σ.underflow f.word 2)

/-! ## Runs -/

inductive Outcome where
  | done (σ : State)
  /-- It failed, and left this state. -/
  | failed (f : Fault) (σ : State)
  /-- The fuel did not suffice. -/
  | timeout

namespace Outcome

/-- Go on after success. -/
def andThen : Outcome → (State → Outcome) → Outcome
  | done σ, next => next σ
  | failed f σ, _ => failed f σ
  | timeout, _ => timeout

/-- The outcome of an operator on the state `σ`. -/
def ofExcept (σ : State) : Except Fault State → Outcome
  | .ok σ' => done σ'
  | .error f => failed f σ

end Outcome

def runBuiltin (label : Nat → Int) (σ : State) : Builtin → Outcome
  | .print =>
    match σ.stack with
    | x :: _ => .done (σ.write (x.format label .raw))
    | [] => .failed (σ.underflow "print" 1) σ
  | .nl => .done (σ.write (lit "\n"))
  | .stack => .done (σ.write (σ.formatStack label))

/-- Run an atom, with `invoke` to run code and `iterate` to repeat it. -/
def Atom.run (invoke : Routine → State → Outcome) (iterate : Routine → Routine → State → Outcome)
    (σ : State) : Atom → Outcome
  | constant c => .done (σ.push (.constant c))
  | primitive p => .ofExcept σ (p.apply σ)
  | exec =>
    match σ.stack with
    | x :: rest =>
      match x with
      | .code r => invoke r { σ with stack := rest }
      | x => .failed (.mismatch (.exec x.kind)) σ
    | [] => .failed (σ.underflow "exec" 1) σ
  | choose =>
    match σ.stack with
    | no :: yes :: flag :: rest =>
      match if flag.truth then yes else no with
      | .code r => invoke r { σ with stack := rest }
      | x => .failed (.mismatch (.exec x.kind)) σ
    | _ => .failed (σ.underflow "if" 3) σ
  | loop =>
    match σ.stack with
    | body :: cond :: rest =>
      match cond, body with
      | .code cond, .code body => iterate cond body { σ with stack := rest }
      | cond, body => .failed (.mismatch (.loop cond.kind body.kind)) σ
    | _ => .failed (σ.underflow "while" 2) σ
  | call word =>
    match σ.words word with
    | some r => invoke r σ
    | none => .failed (.unimplemented word) σ

/-- Run an item: a block is pushed and not run. -/
def Item.run (invoke : Routine → State → Outcome) (iterate : Routine → Routine → State → Outcome)
    (σ : State) : Item → Outcome
  | atom a => a.run invoke iterate σ
  | block number body => .done (σ.push (.code (.block number body)))

/-- Run items one after the other. -/
def runItems (invoke : Routine → State → Outcome) (iterate : Routine → Routine → State → Outcome)
    (σ : State) : List Item → Outcome
  | [] => .done σ
  | item :: items =>
    (item.run invoke iterate σ).andThen fun σ => runItems invoke iterate σ items

mutual

/-- Run code to its end. -/
def invoke (label : Nat → Int) : (fuel : Nat) → Routine → State → Outcome
  | 0, _, _ => .timeout
  | fuel + 1, .block _ body, σ => runItems (invoke label fuel) (iterate label fuel) σ body
  | _ + 1, .builtin b, σ => runBuiltin label σ b

/-- Run the condition and pop a flag; stop if it is false, else run the body and start again. -/
def iterate (label : Nat → Int) : (fuel : Nat) → (cond body : Routine) → State → Outcome
  | 0, _, _, _ => .timeout
  | fuel + 1, cond, body, σ =>
    (invoke label fuel cond σ).andThen fun σ =>
      match σ.stack with
      | [] => .failed (σ.underflow "while" 1) σ
      | flag :: rest =>
        if flag.truth then
          (invoke label fuel body { σ with stack := rest }).andThen (iterate label fuel cond body)
        else .done { σ with stack := rest }

end

/-- Run the items of a source. -/
def run (label : Nat → Int) (fuel : Nat) (σ : State) (items : List Item) : Outcome :=
  runItems (invoke label fuel) (iterate label fuel) σ items

/-- Evaluate the items of a source: the state after it, with the text written, and the fault if it
failed, which leaves no values. There is no result if the fuel does not suffice. -/
def evaluate (label : Nat → Int) (fuel : Nat) (σ : State) (items : List Item) :
    Option (State × Option Fault) :=
  match run label fuel { σ with output := [] } items with
  | .done σ' => some (σ', none)
  | .failed f σ' => some ({ σ' with stack := [] }, some f)
  | .timeout => none

/-- Some fuel suffices to evaluate the items of a source, with this result. -/
def Evaluates (label : Nat → Int) (σ : State) (items : List Item) (σ' : State) (f : Option Fault) :
    Prop :=
  ∃ fuel, evaluate label fuel σ items = some (σ', f)

/-! ## More fuel -/

/-- `o'` is the same outcome as `o`, unless `o` is a run that was cut off. -/
def Outcome.ExtendedBy (o o' : Outcome) : Prop := o = .timeout ∨ o' = o

theorem Outcome.ExtendedBy.trans {o₁ o₂ o₃ : Outcome} (h : o₁.ExtendedBy o₂)
    (h' : o₂.ExtendedBy o₃) : o₁.ExtendedBy o₃ := by
  rcases h with h | rfl
  · exact Or.inl h
  · exact h'

theorem Outcome.ExtendedBy.andThen {o o' : Outcome} {next next' : State → Outcome}
    (h : o.ExtendedBy o') (hnext : ∀ σ, (next σ).ExtendedBy (next' σ)) :
    (o.andThen next).ExtendedBy (o'.andThen next') := by
  rcases h with rfl | rfl
  · exact Or.inl rfl
  · cases o' with
    | done σ => exact hnext σ
    | failed f σ => exact Or.inr rfl
    | timeout => exact Or.inl rfl

section

variable {invoke invoke' : Routine → State → Outcome}
  {iterate iterate' : Routine → Routine → State → Outcome}
  (hinvoke : ∀ k σ, (invoke k σ).ExtendedBy (invoke' k σ))
  (hiterate : ∀ cond body σ, (iterate cond body σ).ExtendedBy (iterate' cond body σ))

include hinvoke hiterate

theorem Atom.run_extendedBy (σ : State) (a : Atom) :
    (a.run invoke iterate σ).ExtendedBy (a.run invoke' iterate' σ) := by
  cases a with
  | constant c => exact Or.inr rfl
  | primitive p => exact Or.inr rfl
  | exec =>
    simp only [Atom.run]
    rcases σ.stack with _ | ⟨_ | k, rest⟩
    · exact Or.inr rfl
    · exact Or.inr rfl
    · exact hinvoke k _
  | choose =>
    simp only [Atom.run]
    rcases σ.stack with _ | ⟨no, _ | ⟨yes, _ | ⟨flag, rest⟩⟩⟩
    case cons.cons.cons =>
      simp only
      rcases (if flag.truth then yes else no) with _ | k
      · exact Or.inr rfl
      · exact hinvoke k _
    all_goals exact Or.inr rfl
  | loop =>
    simp only [Atom.run]
    rcases σ.stack with _ | ⟨_ | body, _ | ⟨_ | cond, rest⟩⟩
    case cons.code.cons.code => exact hiterate cond body _
    all_goals exact Or.inr rfl
  | call word =>
    simp only [Atom.run]
    rcases σ.words word with _ | k
    · exact Or.inr rfl
    · exact hinvoke k σ

theorem runItems_extendedBy (σ : State) (items : List Item) :
    (runItems invoke iterate σ items).ExtendedBy (runItems invoke' iterate' σ items) := by
  induction items generalizing σ with
  | nil => exact Or.inr rfl
  | cons item items ih =>
    refine Outcome.ExtendedBy.andThen ?_ ih
    cases item with
    | atom a => exact a.run_extendedBy hinvoke hiterate σ
    | block number body => exact Or.inr rfl

end

/-- More fuel changes no outcome but a timeout. -/
theorem fuel_extendedBy (label : Nat → Int) (fuel : Nat) :
    (∀ k σ, (invoke label fuel k σ).ExtendedBy (invoke label (fuel + 1) k σ)) ∧
      ∀ cond body σ,
        (iterate label fuel cond body σ).ExtendedBy (iterate label (fuel + 1) cond body σ) := by
  induction fuel with
  | zero =>
    constructor
    · intro k σ
      exact Or.inl (by rw [invoke])
    · intro cond body σ
      exact Or.inl (by rw [iterate])
  | succ fuel ih =>
    obtain ⟨hinvoke, hiterate⟩ := ih
    constructor
    · intro k σ
      cases k with
      | block number body =>
        rw [invoke, invoke]
        exact runItems_extendedBy hinvoke hiterate σ body
      | builtin b =>
        rw [invoke, invoke]
        exact Or.inr rfl
    · intro cond body σ
      rw [iterate, iterate]
      refine (hinvoke cond σ).andThen fun σ => ?_
      rcases σ.stack with _ | ⟨flag, rest⟩
      · exact Or.inr rfl
      · simp only
        split
        · exact (hinvoke body _).andThen (hiterate cond body)
        · exact Or.inr rfl

theorem run_extendedBy (label : Nat → Int) {fuel fuel' : Nat} (hle : fuel ≤ fuel') (σ : State)
    (items : List Item) : (run label fuel σ items).ExtendedBy (run label fuel' σ items) := by
  induction hle with
  | refl => exact Or.inr rfl
  | @step fuel' _ ih =>
    have hfuel := fuel_extendedBy label fuel'
    exact ih.trans (runItems_extendedBy hfuel.1 hfuel.2 σ items)

theorem evaluate_of_le {label : Nat → Int} {fuel fuel' : Nat} (hle : fuel ≤ fuel') {σ : State}
    {items : List Item} {result : State × Option Fault}
    (h : evaluate label fuel σ items = some result) :
    evaluate label fuel' σ items = some result := by
  rcases run_extendedBy label hle { σ with output := [] } items with htimeout | heq
  · rw [evaluate, htimeout] at h
    cases h
  · rwa [evaluate, heq]

/-- A source has one result, whatever the fuel. -/
theorem Evaluates.unique {label : Nat → Int} {σ σ₁ σ₂ : State} {items : List Item}
    {f₁ f₂ : Option Fault} (h₁ : Evaluates label σ items σ₁ f₁)
    (h₂ : Evaluates label σ items σ₂ f₂) : σ₁ = σ₂ ∧ f₁ = f₂ := by
  obtain ⟨fuel₁, h₁⟩ := h₁
  obtain ⟨fuel₂, h₂⟩ := h₂
  have h₁' := evaluate_of_le (Nat.le_max_left fuel₁ fuel₂) h₁
  have h₂' := evaluate_of_le (Nat.le_max_right fuel₁ fuel₂) h₂
  rw [h₁'] at h₂'
  cases h₂'
  exact ⟨rfl, rfl⟩

end StackLang.Tree
