import Mathlib.Data.List.Forall2
import StackLang.Proofs.Assembly
import StackLang.Proofs.Interpreter

/-!
# Machines and states of trees

When the values and definitions of a machine are those of a state of a tree. Handles stand for
texts, and the start of a block stands for its number in a table of blocks.

* `Represents T m σ`: the machine `m` has the values and definitions of the state `σ`.
* `Denotes.same`, `Denotes.truth`, `Denotes.format`: what can be observed of a value
  can be observed of what it denotes.
* `Primitive.follows`: an operator does the same to both.
-/

namespace StackLang

/-- The faults over the machine's own stacks and code, which no source has a part in. -/
def Fault.internal : Fault → Bool
  | .noCall _ => true
  | .noLoop _ => true
  | .mismatch (.noBuiltin _) => true
  | .mismatch (.invalidCode _) => true
  | _ => false

/-- What stays the same while a program runs. -/
structure Setup where
  ops : Array Op
  stackLimit : Int
  callLimit : Int

def Machine.setup (m : Machine) : Setup := ⟨m.program.ops, m.stackLimit, m.callLimit⟩

end StackLang

namespace StackLang.Tree

/-! ## Values -/

/-- The code `c` runs the routine `k`. -/
inductive Refers (T : Table) : Code → Routine → Prop
  | block {n start : Nat} {body : List Item} (h : T[n]? = some ⟨start, body⟩) :
    Refers T (.block start) (.block n body)
  | builtin {i : Int} {b : Builtin} (h : Builtin.ofIndex? i = some b) :
    Refers T (.builtin i) (.builtin b)

/-- The value `v` is the datum `x`. -/
inductive Denotes (r : Registry) (T : Table) : Value → Datum → Prop
  | constant {v : Value} {c : Constant} (h : Stands r v c) : Denotes r T v (.constant c)
  | code {c : Code} {k : Routine} (h : Refers T c k) : Denotes r T (.code c) (.code k)

/-- Blocks come in the order of their numbers. -/
def Ordered (T : Table) : Prop := T.Pairwise fun b b' => b.start < b'.start

/-- How a block is written: by its start. -/
def label (T : Table) (n : Nat) : Int := (T[n]?.map fun b => (b.start : Int)).getD 0

theorem Refers.mono {T T' : Table} {c : Code} {k : Routine} (h : Refers T c k) (hT : T <+: T') :
    Refers T' c k := by
  cases h with
  | block h => exact .block (getElem?_mono hT h)
  | builtin h => exact .builtin h

theorem Denotes.mono {r r' : Registry} {T T' : Table} {v : Value} {x : Datum}
    (h : Denotes r T v x) (hr : r.KeptBy r') (hT : T <+: T') : Denotes r' T' v x := by
  cases h with
  | constant h => exact .constant (h.mono hr)
  | code h => exact .code (h.mono hT)

theorem Ordered.number_eq {T : Table} (hT : Ordered T) {n n' : Nat} {b b' : Placement}
    (h : T[n]? = some b) (h' : T[n']? = some b') (hstart : b.start = b'.start) : n = n' := by
  rw [Ordered, List.pairwise_iff_getElem] at hT
  obtain ⟨hn, rfl⟩ := List.getElem?_eq_some_iff.1 h
  obtain ⟨hn', rfl⟩ := List.getElem?_eq_some_iff.1 h'
  rcases Nat.lt_trichotomy n n' with hlt | heq | hgt
  · exact absurd hstart (Nat.ne_of_lt (hT n n' hn hn' hlt))
  · exact heq
  · exact absurd hstart (Nat.ne_of_gt (hT n' n hn' hn hgt))

theorem index_of_builtin {i : Int} {b : Builtin} (h : Builtin.ofIndex? i = some b) :
    (b = .print ∧ i = 0) ∨ (b = .nl ∧ i = 1) ∨ (b = .stack ∧ i = 2) := by
  rcases i with n | n
  · rcases n with _ | _ | _ | n <;> simp [Builtin.ofIndex?, Builtin.all] at h <;> subst h <;> simp
  · cases h

theorem Refers.same {T : Table} (hT : Ordered T) {c c' : Code} {k k' : Routine}
    (h : Refers T c k) (h' : Refers T c' k') : decide (c = c') = k.same k' := by
  cases h with
  | block h =>
    cases h' with
    | block h' =>
      simp only [Code.block.injEq, Routine.same, decide_eq_decide]
      constructor
      · intro heq
        exact hT.number_eq h h' (Int.ofNat.inj heq)
      · rintro rfl
        rw [h] at h'
        cases h'
        rfl
    | builtin h' => simp [Routine.same]
  | builtin h =>
    cases h' with
    | block h' => simp [Routine.same]
    | builtin h' =>
      simp only [Code.builtin.injEq, Routine.same, decide_eq_decide]
      rcases index_of_builtin h with ⟨rfl, rfl⟩ | ⟨rfl, rfl⟩ | ⟨rfl, rfl⟩ <;>
        rcases index_of_builtin h' with ⟨rfl, rfl⟩ | ⟨rfl, rfl⟩ | ⟨rfl, rfl⟩ <;> simp

theorem Stands.eq_iff {r : Registry} (hr : r.Distinct) {v v' : Value} {c c' : Constant}
    (h : Stands r v c) (h' : Stands r v' c') : v = v' ↔ c = c' := by
  cases h with
  | bool b => cases h' <;> simp
  | int n => cases h' <;> simp
  | sym hname =>
    cases h' with
    | sym hname' =>
      simp only [Value.sym.injEq, Constant.sym.injEq]
      constructor
      · rintro rfl
        rw [hname, Option.some.injEq, Registry.ofWord_inj] at hname'
        exact hname'
      · rintro rfl
        exact hr hname hname'
    | _ => simp
  | str hname =>
    cases h' with
    | str hname' =>
      simp only [Value.str.injEq, Constant.str.injEq]
      constructor
      · rintro rfl
        rw [hname, Option.some.injEq, Registry.ofString_inj] at hname'
        exact hname'
      · rintro rfl
        exact hr hname hname'
    | _ => simp

/-- Values are equal if and only if they denote the same. -/
theorem Denotes.same {r : Registry} {T : Table} (hr : r.Distinct) (hT : Ordered T) {v v' : Value}
    {x x' : Datum} (h : Denotes r T v x) (h' : Denotes r T v' x') :
    decide (v = v') = x.same x' := by
  cases h with
  | constant h =>
    cases h' with
    | constant h' =>
      simp only [Datum.same, decide_eq_decide]
      exact h.eq_iff hr h'
    | code h' => cases h <;> simp [Datum.same]
  | code h =>
    cases h' with
    | constant h' => cases h' <;> simp [Datum.same]
    | code h' => simpa [Datum.same] using h.same hT h'

theorem Denotes.truth {r : Registry} {T : Table} {v : Value} {x : Datum} (h : Denotes r T v x) :
    v.truth = x.truth := by
  cases h with
  | constant h => cases h <;> simp [Value.truth, Datum.truth]
  | code h => simp [Value.truth, Datum.truth]

theorem Denotes.format {r : Registry} {T : Table} {v : Value} {x : Datum} (h : Denotes r T v x)
    (style : Value.StringStyle) : v.format r style = x.format (label T) style := by
  cases h with
  | constant h =>
    cases h with
    | bool b => cases b <;> rfl
    | int n => rfl
    | sym hname => simp only [Value.format, Datum.format, Registry.text_of_word hname]
    | str hname =>
      cases style <;> simp only [Value.format, Datum.format, Registry.text_of_string hname]
  | code h =>
    cases h with
    | block h => simp [Value.format, Code.format, Datum.format, label, h]
    | builtin h => simp [Value.format, Code.format, Datum.format, h]

theorem map_format {r : Registry} {T : Table} {vs : List Value} {xs : List Datum}
    (h : List.Forall₂ (Denotes r T) vs xs) :
    vs.map (Value.format r .quoted) = xs.map (Datum.format (label T) .quoted) := by
  induction h with
  | nil => rfl
  | cons hv _ ih => rw [List.map_cons, List.map_cons, ih, hv.format]

/-! ## Machines -/

/-- The machine `m` has the values and definitions of the state `σ`. -/
structure Represents (T : Table) (m : Machine) (σ : State) : Prop where
  stack : List.Forall₂ (Denotes m.symbols T) m.stack.items σ.stack
  words : ∀ ⦃h w⦄, m.symbols.name? h = some (.ofWord w) →
    Option.Rel (Refers T) (m.words.find? h) (σ.words w)
  /-- Only words are defined. -/
  bound : ∀ ⦃h c⦄, m.words.find? h = some c → ∃ w, m.symbols.name? h = some (.ofWord w)
  /-- A word that is defined has a handle. -/
  named : ∀ ⦃w k⦄, σ.words w = some k → ∃ h, m.symbols.name? h = some (.ofWord w)

namespace Represents

variable {T : Table} {m : Machine} {σ : State}

/-- The text written so far makes no difference. -/
theorem congr (h : Represents T m σ) {σ' : State} (hstack : σ'.stack = σ.stack)
    (hwords : σ'.words = σ.words) : Represents T m σ' := by
  obtain ⟨stack, words, output⟩ := σ'
  cases hstack
  cases hwords
  exact ⟨h.stack, h.words, h.bound, h.named⟩

/-- Where the machine stands does not count. -/
theorem move (h : Represents T m σ) (pc : Int) (calls : Stack Int) (loops : List Loop) :
    Represents T { m with pc := pc, calls := calls, loops := loops } σ :=
  ⟨h.stack, h.words, h.bound, h.named⟩

theorem setStack (h : Represents T m σ) {s : Stack Value} {stack : List Datum} (pc : Int)
    (hstack : List.Forall₂ (Denotes m.symbols T) s.items stack) :
    Represents T { m with stack := s, pc := pc } { σ with stack := stack } :=
  ⟨hstack, h.words, h.bound, h.named⟩

/-- A registry and a table may grow. -/
theorem mono (h : Represents T m σ) {r : Registry} {T' : Table} (hr : m.symbols.KeptBy r)
    (hdistinct : r.Distinct) (hT : T <+: T') : Represents T' { m with symbols := r } σ where
  stack := h.stack.imp fun _ _ hv => hv.mono hr hT
  words := by
    intro handle w hname
    cases hfind : m.words.find? handle with
    | some c =>
      obtain ⟨w', hname'⟩ := h.bound hfind
      have hw : w' = w := by
        have heq := hr hname'
        rw [hname, Option.some.injEq, Registry.ofWord_inj] at heq
        exact heq.symm
      subst hw
      have hrel := h.words hname'
      rw [hfind] at hrel
      cases hrel' : σ.words w' with
      | none =>
        rw [hrel'] at hrel
        cases hrel
      | some k =>
        rw [hrel'] at hrel
        cases hrel with
        | some hrefers => exact .some (hrefers.mono hT)
    | none =>
      cases hword : σ.words w with
      | none => exact .none
      | some k =>
        -- The word had a handle before, and no other handle can have its name now.
        obtain ⟨handle', hname'⟩ := h.named hword
        have hrel := h.words hname'
        rw [hdistinct (hr hname') hname, hfind, hword] at hrel
        cases hrel
  bound := by
    intro handle c hfind
    obtain ⟨w, hname⟩ := h.bound hfind
    exact ⟨w, hr hname⟩
  named := by
    intro w k hword
    obtain ⟨handle, hname⟩ := h.named hword
    exact ⟨handle, hr hname⟩

theorem length_eq (h : Represents T m σ) : m.stack.height = σ.stack.length := by
  rw [m.stack.height_eq, h.stack.length_eq]

theorem formatStack (h : Represents T m σ) : m.formatStack = σ.formatStack (label T) := by
  rw [Machine.formatStack, Value.formatList, Machine.values, List.map_reverse,
    map_format h.stack, State.formatStack, List.map_reverse]

end Represents

theorem lookup_filter_ne {word h : Handle} (hne : h ≠ word) (entries : List (Handle × Code)) :
    (entries.filter fun e => e.1 ≠ word).lookup h = entries.lookup h := by
  induction entries with
  | nil => rfl
  | cons e entries ih =>
    rw [List.filter_cons]
    by_cases he : e.1 = word
    · have hbeq : (h == e.1) = false := by simp [he, hne]
      rw [if_neg (by simp [he]), ih, List.lookup_cons, hbeq]
    · rw [if_pos (by simp [he]), List.lookup_cons, List.lookup_cons, ih]

theorem find?_define (d : Dictionary) (word h : Handle) (c : Code) :
    (d.define word c).find? h = if h = word then some c else d.find? h := by
  simp only [Dictionary.find?, Dictionary.define, List.lookup_cons]
  by_cases heq : h = word
  · simp [heq]
  · have hbeq : (h == word) = false := by simp [heq]
    rw [if_neg heq, hbeq]
    exact lookup_filter_ne heq d.entries

theorem Represents.define {T : Table} {m : Machine} {σ : State} (h : Represents T m σ)
    (hdistinct : m.symbols.Distinct) {handle : Handle} {word : Bytes} {c : Code} {k : Routine}
    (hname : m.symbols.name? handle = some (.ofWord word)) (hc : Refers T c k) :
    Represents T { m with words := m.words.define handle c } (σ.define word k) where
  stack := h.stack
  words := by
    intro handle' w hname'
    simp only [find?_define, State.define]
    have hiff : handle' = handle ↔ w = word := by
      constructor
      · rintro rfl
        rw [hname, Option.some.injEq, Registry.ofWord_inj] at hname'
        exact hname'.symm
      · rintro rfl
        exact hdistinct hname' hname
    by_cases heq : handle' = handle
    · rw [if_pos heq, if_pos (hiff.1 heq)]
      exact .some hc
    · rw [if_neg heq, if_neg (mt hiff.2 heq)]
      exact h.words hname'
  bound := by
    intro handle' c' hfind
    simp only [find?_define] at hfind
    split at hfind
    · rename_i heq
      exact ⟨word, heq ▸ hname⟩
    · exact h.bound hfind
  named := by
    intro w k' hword
    simp only [State.define] at hword
    split at hword
    · rename_i heq
      exact ⟨handle, heq ▸ hname⟩
    · exact h.named hword

/-! ## Operators -/

/-- What an operator leaves alone: all but the values, the definitions, and names that are new. -/
structure Keeps (m m' : Machine) : Prop where
  setup : m'.setup = m.setup
  calls : m'.calls = m.calls
  loops : m'.loops = m.loops
  symbols : m.symbols.KeptBy m'.symbols
  distinct : m.symbols.Distinct → m'.symbols.Distinct

/-- The effect on the machine `m` is the result on the state `σ`. A stack with a limit may also
overflow, which the state knows nothing of. -/
inductive Follows (T : Table) (m : Machine) (σ : State) : Effect → Except Fault State → Prop
  | next {m' : Machine} {σ' : State} (hkeeps : Keeps m m') (hpc : m'.pc = m.pc + 1)
    (hrep : Represents T m' σ') (houtput : σ'.output = σ.output) :
    Follows T m σ (.next m') (.ok σ')
  | fault {f : Fault} {m' : Machine} {stack : List Datum} (hf : f.internal = false)
    (hkeeps : Keeps m m') (hpc : m'.pc = m.pc) (hrep : Represents T m' { σ with stack := stack }) :
    Follows T m σ (.fault f m') (.error f)
  | overflow {m' : Machine} {result : Except Fault State} {stack : List Datum}
    (hlimit : m.stackLimit ≠ 0) (hkeeps : Keeps m m') (hpc : m'.pc = m.pc)
    (hrep : Represents T m' { σ with stack := stack }) :
    Follows T m σ (.fault (.stackOverflow m.stackLimit) m') result

theorem Keeps.refl (m : Machine) : Keeps m m :=
  ⟨rfl, rfl, rfl, .refl _, id⟩

/-- Values and definitions do not count. -/
theorem keeps_set (m : Machine) (stack : Stack Value) (words : Dictionary) (pc : Int) :
    Keeps m { m with stack := stack, words := words, pc := pc } :=
  ⟨rfl, rfl, rfl, .refl _, id⟩

section

variable {T : Table} {m : Machine} {σ : State}

theorem Represents.fails (h : Represents T m σ) {f : Fault} (hf : f.internal = false) :
    Follows T m σ (.fault f m) (.error f) :=
  .fault hf (.refl m) rfl h

theorem Represents.underflow (h : Represents T m σ) (word : String) (needed : Nat) :
    Follows T m σ (m.underflow word needed) (.error (σ.underflow word needed)) := by
  rw [Machine.underflow, State.underflow, h.length_eq]
  exact h.fails rfl

/-- Push a result, after operands were taken and perhaps a name was added. -/
theorem Represents.push {m₁ : Machine} {stack : List Datum} {v : Value} {x : Datum}
    (h : Represents T m₁ { σ with stack := stack }) (hkeeps : Keeps m m₁) (hpc : m₁.pc = m.pc)
    (hv : Denotes m₁.symbols T v x) :
    Follows T m σ (m₁.push v) (.ok { σ with stack := x :: stack }) := by
  have hlimit : m₁.stackLimit = m.stackLimit := congrArg Setup.stackLimit hkeeps.setup
  unfold Machine.push
  by_cases hfull : m₁.stack.full m₁.stackLimit
  · rw [if_pos hfull, hlimit]
    refine .overflow ?_ hkeeps hpc h
    intro hzero
    simp [Stack.full, hlimit, hzero] at hfull
  · rw [if_neg hfull]
    refine .next ?_ (by simp [hpc]) (h.setStack _ (.cons hv h.stack)) rfl
    exact ⟨hkeeps.setup, hkeeps.calls, hkeeps.loops, hkeeps.symbols, hkeeps.distinct⟩

/-- The machine without operands that were looked at. -/
theorem Represents.drop (h : Represents T m σ) (n : Nat) {vs : List Value} {stack : List Datum}
    (hvs : m.stack.items.drop n = vs) (hstack : List.Forall₂ (Denotes m.symbols T) vs stack) :
    Represents T (m.drop n) { σ with stack := stack } := by
  refine h.setStack m.pc ?_
  rwa [Stack.items_drop, hvs]

/-- Push a result in place of operands. -/
theorem Represents.result {n : Nat} {stack : List Datum} {v : Value} {x : Datum}
    (h : Represents T (m.drop n) { σ with stack := stack }) (hv : Denotes m.symbols T v x) :
    Follows T m σ ((m.drop n).push v) (.ok { σ with stack := x :: stack }) :=
  h.push (keeps_set m _ m.words m.pc) rfl hv

/-- Put values in place of others. -/
theorem Represents.replace (h : Represents T m σ) {n : Nat} {vs rest : List Value}
    {stack : List Datum} (hrest : m.stack.items.drop n = rest)
    (hstack : List.Forall₂ (Denotes m.symbols T) (vs ++ rest) stack) :
    Follows T m σ (m.replace n vs) (.ok { σ with stack := stack }) := by
  refine .next (keeps_set m _ m.words _) rfl (h.setStack _ ?_) rfl
  rwa [Stack.items_replace, hrest]

/-- The stacks are both empty, or have a top that is the same. -/
theorem Represents.top (h : Represents T m σ) :
    (m.stack.items = [] ∧ σ.stack = []) ∨
      ∃ v x vs xs, m.stack.items = v :: vs ∧ σ.stack = x :: xs ∧ Denotes m.symbols T v x ∧
        List.Forall₂ (Denotes m.symbols T) vs xs := by
  have hstack := h.stack
  generalize m.stack.items = vs at hstack ⊢
  generalize σ.stack = xs at hstack ⊢
  cases hstack with
  | nil => exact Or.inl ⟨rfl, rfl⟩
  | cons hv hvs => exact Or.inr ⟨_, _, _, _, rfl, rfl, hv, hvs⟩

theorem Represents.integers (h : Represents T m σ) (word : String)
    {f : Int64 → Int64 → Machine → Effect} {g : Int64 → Int64 → Except Fault Datum}
    (hfg : ∀ a b stack, Represents T (m.drop 2) { σ with stack := stack } →
      Follows T m σ (f a b (m.drop 2)) ((g a b).map fun x => { σ with stack := x :: stack })) :
    Follows T m σ (m.popIntegers word f) (σ.integers word g) := by
  unfold Machine.popIntegers State.integers
  obtain ⟨hi, hs⟩ | ⟨v, x, vs, xs, hi, hs, hv, hvs⟩ := h.top
  · simpa only [hi, hs] using h.underflow word 2
  · simp only [hi, hs]
    cases hvs with
    | nil => exact h.underflow word 2
    | cons hw hrest =>
      rcases hv with ⟨⟨⟩⟩ | ⟨⟩ <;> rcases hw with ⟨⟨⟩⟩ | ⟨⟩
      case constant.int.constant.int b a =>
        exact hfg a b _ (h.drop 2 (by rw [hi]; rfl) hrest)
      all_goals exact h.fails rfl

theorem follows_add (h : Represents T m σ) (hdistinct : m.symbols.Distinct) :
    Follows T m σ (Op.runAdd m) (Primitive.add.apply σ) := by
  unfold Op.runAdd Primitive.apply
  obtain ⟨hi, hs⟩ | ⟨v, x, vs, xs, hi, hs, hv, hvs⟩ := h.top
  · simpa only [hi, hs] using h.underflow "+" 2
  · simp only [hi, hs]
    cases hvs with
    | nil => exact h.underflow "+" 2
    | cons hw hrest =>
      have hdrop := h.drop 2 (by rw [hi]; rfl) hrest
      rcases hv with ⟨⟨⟩⟩ | ⟨⟩ <;> rcases hw with ⟨⟨⟩⟩ | ⟨⟩
      case constant.int.constant.int b a =>
        exact hdrop.result (.constant (.int (a + b)))
      case constant.str.constant.str b t hb a s ha =>
        have hname := m.symbols.name?_intern (m.symbols.joined a b)
        have hkept := m.symbols.keptBy_intern (m.symbols.joined a b)
        have hdistinct' := hdistinct.intern (m.symbols.joined a b)
        have hjoined : m.symbols.joined a b = .ofString (s ++ t) := by
          rw [Registry.joined_eq, Registry.text_of_string ha, Registry.text_of_string hb]
        refine (hdrop.mono hkept hdistinct' (List.prefix_refl T)).push ?_ rfl ?_
        · exact ⟨rfl, rfl, rfl, hkept, fun _ => hdistinct'⟩
        · exact .constant (.str (hname.trans (congrArg some hjoined)))
      all_goals exact h.fails rfl

theorem follows_define (h : Represents T m σ) (hdistinct : m.symbols.Distinct) :
    Follows T m σ (Op.runDefine m) (Primitive.define.apply σ) := by
  unfold Op.runDefine Primitive.apply
  obtain ⟨hi, hs⟩ | ⟨v, x, vs, xs, hi, hs, hv, hvs⟩ := h.top
  · simpa only [hi, hs] using h.underflow "def" 2
  · simp only [hi, hs]
    cases hvs with
    | nil => exact h.underflow "def" 2
    | cons hw hrest =>
      have hdrop := h.drop 2 (by rw [hi]; rfl) hrest
      rcases hv with ⟨⟨⟩⟩ | ⟨⟩ <;> rcases hw with ⟨⟨⟩⟩ | ⟨⟩
      case constant.sym.code hname c k hc =>
        have hdefine := hdrop.define hdistinct hname hc
        refine .next (keeps_set m _ _ _) rfl ?_ rfl
        exact ⟨hdefine.stack, hdefine.words, hdefine.bound, hdefine.named⟩
      all_goals exact h.fails rfl

/-- An operator does the same to a machine as to the state it represents. -/
theorem Primitive.follows (h : Represents T m σ) (hdistinct : m.symbols.Distinct) (hT : Ordered T)
    (p : Primitive) : Follows T m σ (p.op.run m) (p.apply σ) := by
  cases p with
  | define => exact follows_define h hdistinct
  | add => exact follows_add h hdistinct
  | arith f =>
    simp only [Primitive.op, Op.run, Primitive.apply]
    refine h.integers f.word ?_
    intro a b stack hstack
    exact hstack.result (.constant (.int _))
  | div =>
    simp only [Primitive.op, Op.run, Primitive.apply]
    refine h.integers "/" ?_
    intro a b stack hstack
    by_cases hzero : b = 0
    · rw [if_pos hzero, if_pos hzero]
      exact .fault rfl (keeps_set m _ m.words m.pc) rfl hstack
    · rw [if_neg hzero, if_neg hzero]
      exact hstack.result (.constant (.int _))
  | compare f =>
    simp only [Primitive.op, Op.run, Primitive.apply]
    refine h.integers f.word ?_
    intro a b stack hstack
    exact hstack.result (.constant (.bool _))
  | eq =>
    simp only [Primitive.op, Op.run, Primitive.apply]
    obtain ⟨hi, hs⟩ | ⟨v, x, vs, xs, hi, hs, hv, hvs⟩ := h.top
    · simpa only [hi, hs] using h.underflow "=" 2
    · simp only [hi, hs]
      cases hvs with
      | nil => exact h.underflow "=" 2
      | cons hw hrest =>
        refine (h.drop 2 (by rw [hi]; rfl) hrest).result ?_
        rw [hw.same hdistinct hT hv]
        exact .constant (.bool _)
  | drop =>
    simp only [Primitive.op, Op.run, Primitive.apply]
    obtain ⟨hi, hs⟩ | ⟨v, x, vs, xs, hi, hs, hv, hvs⟩ := h.top
    · simpa only [hi, hs] using h.underflow "." 1
    · simp only [hi, hs]
      exact h.replace (by rw [hi]; rfl) hvs
  | dup =>
    simp only [Primitive.op, Op.run, Primitive.apply]
    obtain ⟨hi, hs⟩ | ⟨v, x, vs, xs, hi, hs, hv, hvs⟩ := h.top
    · simpa only [hi, hs] using h.underflow "dup" 1
    · simp only [hi, hs]
      have hpush := Represents.push h (.refl m) rfl hv
      rwa [hs] at hpush
  | swap =>
    simp only [Primitive.op, Op.run, Primitive.apply]
    obtain ⟨hi, hs⟩ | ⟨v, x, vs, xs, hi, hs, hv, hvs⟩ := h.top
    · simpa only [hi, hs] using h.underflow "swap" 2
    · simp only [hi, hs]
      cases hvs with
      | nil => exact h.underflow "swap" 2
      | cons hw hrest => exact h.replace (by rw [hi]; rfl) (.cons hw (.cons hv hrest))
  | rot =>
    simp only [Primitive.op, Op.run, Primitive.apply]
    obtain ⟨hi, hs⟩ | ⟨v, x, vs, xs, hi, hs, hv, hvs⟩ := h.top
    · simpa only [hi, hs] using h.underflow "rot" 3
    · simp only [hi, hs]
      rcases hvs with _ | ⟨hw, _ | ⟨hu, hrest⟩⟩
      · exact h.underflow "rot" 3
      · exact h.underflow "rot" 3
      · exact h.replace (by rw [hi]; rfl) (.cons hu (.cons hv (.cons hw hrest)))
  | unrot =>
    simp only [Primitive.op, Op.run, Primitive.apply]
    obtain ⟨hi, hs⟩ | ⟨v, x, vs, xs, hi, hs, hv, hvs⟩ := h.top
    · simpa only [hi, hs] using h.underflow "-rot" 3
    · simp only [hi, hs]
      rcases hvs with _ | ⟨hw, _ | ⟨hu, hrest⟩⟩
      · exact h.underflow "-rot" 3
      · exact h.underflow "-rot" 3
      · exact h.replace (by rw [hi]; rfl) (.cons hw (.cons hu (.cons hv hrest)))
  | not =>
    simp only [Primitive.op, Op.run, Primitive.apply]
    obtain ⟨hi, hs⟩ | ⟨v, x, vs, xs, hi, hs, hv, hvs⟩ := h.top
    · simpa only [hi, hs] using h.underflow "not" 1
    · simp only [hi, hs, hv.truth]
      exact h.replace (by rw [hi]; rfl) (.cons (.constant (.bool _)) hvs)
  | connect f =>
    simp only [Primitive.op, Op.run, Primitive.apply]
    obtain ⟨hi, hs⟩ | ⟨v, x, vs, xs, hi, hs, hv, hvs⟩ := h.top
    · simpa only [hi, hs] using h.underflow f.word 2
    · simp only [hi, hs]
      cases hvs with
      | nil => exact h.underflow f.word 2
      | cons hw hrest =>
        simp only [hv.truth, hw.truth]
        exact (h.drop 2 (by rw [hi]; rfl) hrest).result (.constant (.bool _))

/-! ## Instructions that run code -/

/-- Keep one of two values, by a flag below them. -/
def State.select (σ : State) : Except Fault State :=
  match σ.stack with
  | no :: yes :: flag :: rest =>
    .ok { σ with stack := (if flag.truth then yes else no) :: rest }
  | _ => .error (σ.underflow "if" 3)

theorem follows_select (h : Represents T m σ) :
    Follows T m σ (Op.select.run m) σ.select := by
  simp only [Op.run, State.select]
  obtain ⟨hi, hs⟩ | ⟨v, x, vs, xs, hi, hs, hv, hvs⟩ := h.top
  · simpa only [hi, hs] using h.underflow "if" 3
  · simp only [hi, hs]
    rcases hvs with _ | ⟨hw, _ | ⟨hu, hrest⟩⟩
    · exact h.underflow "if" 3
    · exact h.underflow "if" 3
    · refine h.replace (by rw [hi]; rfl) (.cons ?_ hrest)
      rw [hu.truth]
      split
      · exact hw
      · exact hv

/-- Code that is a routine of the tree, at the top of the stack, is dispatched; anything else is
refused. -/
theorem run_exec (h : Represents T m σ) :
    (∃ c k rest, σ.stack = .code k :: rest ∧ Refers T c k ∧
      Represents T (m.drop 1) { σ with stack := rest } ∧
      Op.exec.run m = (m.drop 1).dispatch c) ∨
    ∃ f, f.internal = false ∧ Op.exec.run m = .fault f m ∧
      ∀ invoke iterate, Atom.exec.run invoke iterate σ = .failed f σ := by
  simp only [Op.run, Op.runExec, Atom.run]
  obtain ⟨hi, hs⟩ | ⟨v, x, vs, xs, hi, hs, hv, hvs⟩ := h.top
  · simp only [hi, hs]
    refine Or.inr ⟨_, rfl, rfl, ?_⟩
    intro invoke iterate
    rw [State.underflow, h.length_eq]
  · simp only [hi, hs]
    rcases hv with ⟨⟨⟩⟩ | ⟨hc⟩
    case code => exact Or.inl ⟨_, _, xs, rfl, hc, h.drop 1 (by rw [hi]; rfl) hvs, rfl⟩
    all_goals exact Or.inr ⟨_, rfl, rfl, fun _ _ => rfl⟩

/-- A word that is defined is run. -/
theorem run_call (h : Represents T m σ) {handle : Handle} {word : Bytes}
    (hname : m.symbols.name? handle = some (.ofWord word)) :
    (∃ c k, σ.words word = some k ∧ Refers T c k ∧ (Op.call handle).run m = m.dispatch c) ∨
      σ.words word = none ∧ (Op.call handle).run m = .fault (.unimplemented word) m := by
  have hrel := h.words hname
  simp only [Op.run]
  generalize m.words.find? handle = found at hrel ⊢
  generalize σ.words word = known at hrel ⊢
  cases hrel with
  | some hc => exact Or.inl ⟨_, _, rfl, hc, rfl⟩
  | none => exact Or.inr ⟨rfl, by rw [Registry.text_of_word hname]⟩

theorem run_loopEnter (h : Represents T m σ) :
    (∃ cond body kcond kbody rest, σ.stack = .code kbody :: .code kcond :: rest ∧
      Refers T cond kcond ∧ Refers T body kbody ∧
      Represents T (m.drop 2) { σ with stack := rest } ∧
      Op.loopEnter.run m =
        .next { m.drop 2 with loops := ⟨cond, body⟩ :: m.loops, pc := m.pc + 1 }) ∨
    ∃ f, f.internal = false ∧ Op.loopEnter.run m = .fault f m ∧
      ∀ invoke iterate, Atom.loop.run invoke iterate σ = .failed f σ := by
  simp only [Op.run, Op.runLoopEnter, Atom.run]
  obtain ⟨hi, hs⟩ | ⟨v, x, vs, xs, hi, hs, hv, hvs⟩ := h.top
  · simp only [hi, hs]
    refine Or.inr ⟨_, rfl, rfl, ?_⟩
    intro invoke iterate
    rw [State.underflow, h.length_eq]
  · simp only [hi, hs]
    cases hvs with
    | nil =>
      refine Or.inr ⟨_, rfl, rfl, ?_⟩
      intro invoke iterate
      simp only [State.underflow, h.length_eq]
    | cons hw hrest =>
      rcases hv with ⟨⟨⟩⟩ | ⟨hb⟩ <;> rcases hw with ⟨⟨⟩⟩ | ⟨hc⟩
      case code.code =>
        exact Or.inl ⟨_, _, _, _, _, rfl, hc, hb, h.drop 2 (by rw [hi]; rfl) hrest, rfl⟩
      all_goals exact Or.inr ⟨_, rfl, rfl, fun _ _ => rfl⟩

/-- A flag decides whether a loop goes on. -/
theorem run_loopExit (h : Represents T m σ) {l : Loop} {loops : List Loop}
    (hloops : m.loops = l :: loops) (target : Int) :
    (σ.stack = [] ∧ (Op.loopExit target).run m = .fault (σ.underflow "while" 1) m) ∨
    ∃ flag rest, σ.stack = flag :: rest ∧
      (Op.loopExit target).run m =
        (if flag.truth then .next { m.drop 1 with pc := m.pc + 1 }
          else .next { m.drop 1 with loops := loops, pc := target }) ∧
      Represents T (m.drop 1) { σ with stack := rest } := by
  simp only [Op.run, Machine.withLoop, hloops]
  obtain ⟨hi, hs⟩ | ⟨v, x, vs, xs, hi, hs, hv, hvs⟩ := h.top
  · simp only [hi, hs]
    refine Or.inl ⟨trivial, ?_⟩
    rw [Machine.underflow, State.underflow, h.length_eq]
  · simp only [hi, hs]
    refine Or.inr ⟨x, xs, rfl, ?_, h.drop 1 (by rw [hi]; rfl) hvs⟩
    rw [hv.truth]
    rfl

/-- A builtin writes a text or lacks a value. -/
theorem dispatch_builtin (h : Represents T m σ) {i : Int} {b : Builtin}
    (hb : Builtin.ofIndex? i = some b) :
    (∃ text, m.dispatch (.builtin i) = .emit text m ∧
      runBuiltin (label T) σ b = .done (σ.write text)) ∨
    m.dispatch (.builtin i) = .fault (σ.underflow "print" 1) m ∧
      runBuiltin (label T) σ b = .failed (σ.underflow "print" 1) σ := by
  simp only [Machine.dispatch, hb]
  cases b with
  | print =>
    simp only [runBuiltin]
    obtain ⟨hi, hs⟩ | ⟨v, x, vs, xs, hi, hs, hv, hvs⟩ := h.top
    · simp only [hi, hs]
      refine Or.inr ⟨?_, trivial⟩
      rw [Machine.underflow, State.underflow, h.length_eq]
    · simp only [hi, hs]
      exact Or.inl ⟨_, rfl, by rw [hv.format]⟩
  | nl => exact Or.inl ⟨_, rfl, rfl⟩
  | stack => exact Or.inl ⟨_, rfl, by rw [h.formatStack]; rfl⟩

end

end StackLang.Tree
