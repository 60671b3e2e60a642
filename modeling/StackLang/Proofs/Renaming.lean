import Mathlib.Data.List.Forall2
import StackLang.Proofs.Effects

/-!
# The same up to names and addresses

Two machines can do the same although they number names differently and have their blocks at other
addresses. A handle stands for its name, and a chart says which addresses of two programs belong
together.

* `Registry.SameName`: two handles, each of its own registry, have the same name.
* `Chart`: which addresses of two programs belong together.
* `Value.Alike`, `Op.Alike`: values and instructions that are the same up to names and addresses.
* `Machine.Parallel`: machines that are.
-/

namespace StackLang

/-! ## Names -/

namespace Registry

/-- The handle `h` of one registry and the handle `h'` of another have the same name. -/
def SameName (r r' : Registry) (h h' : Handle) : Prop :=
  ∃ n, r.name? h = some n ∧ r'.name? h' = some n

section

variable {r r' : Registry} {h h' k k' : Handle}

theorem SameName.mono (hname : SameName r r' h h') {s s' : Registry} (hr : r.KeptBy s)
    (hr' : r'.KeptBy s') : SameName s s' h h' := by
  obtain ⟨n, hn, hn'⟩ := hname
  exact ⟨n, hr hn, hr' hn'⟩

/-- Handles are equal if and only if the handles they belong to are. -/
theorem SameName.eq_iff (hname : SameName r r' h h') (hr : r.Distinct) (hr' : r'.Distinct)
    (hname' : SameName r r' k k') : h = k ↔ h' = k' := by
  obtain ⟨n, hn, hn'⟩ := hname
  obtain ⟨m, hm, hm'⟩ := hname'
  constructor
  · rintro rfl
    rw [hn, Option.some.injEq] at hm
    subst hm
    exact hr' hn' hm'
  · rintro rfl
    rw [hn', Option.some.injEq] at hm'
    subst hm'
    exact hr hn hm

theorem SameName.packed (hname : SameName r r' h h') : r.packed h = r'.packed h' := by
  obtain ⟨n, hn, hn'⟩ := hname
  rw [packed_of_name? hn, packed_of_name? hn']

theorem SameName.text (hname : SameName r r' h h') : r.text h = r'.text h' :=
  congrArg Bytes.unpack hname.packed

theorem SameName.joined (hname : SameName r r' h h') (hname' : SameName r r' k k') :
    r.joined h k = r'.joined h' k' := by
  rw [Registry.joined, Registry.joined, hname.packed, hname'.packed]

end

theorem sameName_intern (r r' : Registry) (n : Name) :
    SameName (r.intern n).1 (r'.intern n).1 (r.intern n).2 (r'.intern n).2 :=
  ⟨n, r.name?_intern n, r'.name?_intern n⟩

end Registry

/-! ## Addresses -/

/-- Which addresses of two programs belong together. -/
structure Chart where
  /-- One machine can stand at the first address while the other stands at the second. -/
  stands : Int → Int → Prop
  /-- The same block starts there. -/
  starts : Int → Int → Prop
  stands_of_starts : ∀ ⦃a a'⦄, starts a a' → stands a a'
  one_to_one : ∀ ⦃a a' b b'⦄, starts a a' → starts b b' → (a = b ↔ a' = b')

/-- Every address belongs to itself. -/
def Chart.same : Chart where
  stands := Eq
  starts := Eq
  stands_of_starts _ _ h := h
  one_to_one := by
    rintro a _ b _ rfl rfl
    exact Iff.rfl

/-- No address is changed. -/
def Fixes (B : Int → Int → Prop) : Prop := ∀ ⦃a a'⦄, B a a' → a = a'

theorem Chart.same_fixes : Fixes Chart.same.stands := fun _ _ h => h

theorem Chart.starts_fixes {χ : Chart} (h : Fixes χ.stands) : Fixes χ.starts :=
  fun _ _ hstarts => h (χ.stands_of_starts hstarts)

/-! ## Values -/

/-- Code that is the same, with the starts of blocks matched by `B`. -/
inductive Code.Alike (B : Int → Int → Prop) : Code → Code → Prop
  | block {a a' : Int} (h : B a a') : Alike B (.block a) (.block a')
  | builtin (i : Int) : Alike B (.builtin i) (.builtin i)

/-- Values that are the same, with handles matched by their names and the starts of blocks
by `B`. -/
inductive Value.Alike (B : Int → Int → Prop) (r r' : Registry) : Value → Value → Prop
  | bool (b : Bool) : Alike B r r' (.bool b) (.bool b)
  | int (n : Int64) : Alike B r r' (.int n) (.int n)
  | sym {h h' : Handle} (hname : r.SameName r' h h') : Alike B r r' (.sym h) (.sym h')
  | str {h h' : Handle} (hname : r.SameName r' h h') : Alike B r r' (.str h) (.str h')
  | code {c c' : Code} (hc : Code.Alike B c c') : Alike B r r' (.code c) (.code c')

theorem Code.Alike.imp {B B' : Int → Int → Prop} {c c' : Code} (h : Code.Alike B c c')
    (hB : ∀ ⦃a a'⦄, B a a' → B' a a') : Code.Alike B' c c' := by
  cases h with
  | block h => exact .block (hB h)
  | builtin i => exact .builtin i

theorem Code.Alike.eq_of_fixes {B : Int → Int → Prop} {c c' : Code} (h : Code.Alike B c c')
    (hB : Fixes B) : c = c' := by
  cases h with
  | block h => rw [hB h]
  | builtin i => rfl

namespace Value.Alike

variable {B : Int → Int → Prop} {r r' : Registry} {v v' w w' : Value}

theorem imp (h : Alike B r r' v v') {B' : Int → Int → Prop} {s s' : Registry}
    (hB : ∀ ⦃a a'⦄, B a a' → B' a a') (hr : r.KeptBy s) (hr' : r'.KeptBy s') :
    Alike B' s s' v v' := by
  cases h with
  | bool b => exact .bool b
  | int n => exact .int n
  | sym hname => exact .sym (hname.mono hr hr')
  | str hname => exact .str (hname.mono hr hr')
  | code hc => exact .code (hc.imp hB)

theorem mono (h : Alike B r r' v v') {s s' : Registry} (hr : r.KeptBy s) (hr' : r'.KeptBy s') :
    Alike B s s' v v' :=
  h.imp (fun _ _ hB => hB) hr hr'

theorem truth (h : Alike B r r' v v') : v.truth = v'.truth := by
  cases h <;> simp [Value.truth]

/-- Equality of values is the same on both sides. -/
theorem eq_iff (h : Alike B r r' v v') (hr : r.Distinct) (hr' : r'.Distinct)
    (hB : ∀ ⦃a a' b b'⦄, B a a' → B b b' → (a = b ↔ a' = b')) (hw : Alike B r r' w w') :
    v = w ↔ v' = w' := by
  cases h with
  | bool b => cases hw <;> simp
  | int n => cases hw <;> simp
  | sym hname =>
    cases hw with
    | sym hname' => simpa using hname.eq_iff hr hr' hname'
    | _ => simp
  | str hname =>
    cases hw with
    | str hname' => simpa using hname.eq_iff hr hr' hname'
    | _ => simp
  | code hc =>
    cases hw with
    | code hc' =>
      cases hc with
      | block ha =>
        cases hc' with
        | block hb => simpa using hB ha hb
        | builtin i => simp
      | builtin i => cases hc' <;> simp
    | _ => simp

/-- Only code can look different. -/
theorem format (h : Alike B r r' v v') (hplain : Fixes B ∨ v.code? = none)
    (style : StringStyle) : v.format r style = v'.format r' style := by
  cases h with
  | bool b => cases b <;> rfl
  | int n => rfl
  | sym hname => simp only [Value.format, hname.text]
  | str hname => simp only [Value.format, hname.text]
  | code hc =>
    rcases hplain with hB | hnone
    · rw [hc.eq_of_fixes hB]
      rfl
    · cases hnone

end Value.Alike

theorem Value.format_of_alike {B : Int → Int → Prop} {r r' : Registry} {vs vs' : List Value}
    (h : List.Forall₂ (Value.Alike B r r') vs vs')
    (hplain : Fixes B ∨ ∀ v ∈ vs, v.code? = none) (style : StringStyle) :
    vs.map (Value.format r style) = vs'.map (Value.format r' style) := by
  induction h with
  | nil => rfl
  | cons hv _ ih =>
    have hhead := hv.format (hplain.imp_right fun hall => hall _ List.mem_cons_self) style
    have htail := ih (hplain.imp_right fun hall v hv => hall v (List.mem_cons_of_mem _ hv))
    rw [List.map_cons, List.map_cons, hhead, htail]

/-! ## Instructions -/

/-- Instructions that refer to nothing. -/
def Op.isPlain : Op → Bool
  | .push _ | .call _ | .loopExit _ | .jump _ | .other _ => false
  | _ => true

/-- Instructions that are the same, with addresses matched by a chart. -/
inductive Op.Alike (χ : Chart) (r r' : Registry) : Op → Op → Prop
  | push {v v' : Value} (h : Value.Alike χ.starts r r' v v') : Alike χ r r' (.push v) (.push v')
  | call {h h' : Handle} (hname : r.SameName r' h h') : Alike χ r r' (.call h) (.call h')
  | loopExit {a a' : Int} (h : χ.stands a a') : Alike χ r r' (.loopExit a) (.loopExit a')
  | jump {a a' : Int} (h : χ.stands a a') : Alike χ r r' (.jump a) (.jump a')
  | plain {op : Op} (h : op.isPlain) : Alike χ r r' op op

theorem Op.Alike.mono {χ : Chart} {r r' : Registry} {op op' : Op} (h : Op.Alike χ r r' op op')
    {s s' : Registry} (hr : r.KeptBy s) (hr' : r'.KeptBy s') : Op.Alike χ s s' op op' := by
  cases h with
  | push h => exact .push (h.mono hr hr')
  | call hname => exact .call (hname.mono hr hr')
  | loopExit h => exact .loopExit h
  | jump h => exact .jump h
  | plain h => exact .plain h

theorem Op.Alike.format {χ : Chart} {r r' : Registry} {op op' : Op} (h : Op.Alike χ r r' op op')
    (hχ : Fixes χ.stands) : op.format r = op'.format r' := by
  cases h with
  | push h => simp only [Op.format, Op.name, h.format (Or.inl (Chart.starts_fixes hχ))]
  | call hname => simp only [Op.format, Op.name, hname.text]
  | loopExit h => rw [hχ h]; rfl
  | jump h => rw [hχ h]; rfl
  | @plain op h => cases op <;> simp_all [Op.isPlain, Op.format]

/-- Alike code has alike instructions in the same places. -/
theorem Op.alike_at {χ : Chart} {r r' : Registry} {code code' : List Op}
    (h : List.Forall₂ (Op.Alike χ r r') code code') {i : Nat} {op : Op} (hi : code[i]? = some op) :
    ∃ op', code'[i]? = some op' ∧ Op.Alike χ r r' op op' := by
  induction h generalizing i with
  | nil => simp at hi
  | cons hop _ ih =>
    cases i with
    | zero =>
      cases hi
      exact ⟨_, rfl, hop⟩
    | succ i => exact ih hi

/-! ## Programs -/

/-- The instruction at an address. -/
def fetchAt (ops : Array Op) : Int → Option Op
  | .ofNat n => ops[n]?
  | .negSucc _ => none

theorem Machine.fetch?_eq (m : Machine) : m.fetch? = fetchAt m.program.ops m.pc := rfl

theorem lt_of_fetchAt {ops : Array Op} {a : Int} {op : Op} (h : fetchAt ops a = some op) :
    a < ops.size := by
  cases a with
  | ofNat n => exact Int.ofNat_lt.2 (Array.getElem?_eq_some_iff.1 h).1
  | negSucc n => cases h

/-- What is found at addresses that belong together is alike, and control goes on to addresses that
belong together. -/
structure Chart.Maps (χ : Chart) (r r' : Registry) (ops ops' : Array Op) : Prop where
  op : ∀ ⦃a a' op⦄, χ.stands a a' → fetchAt ops a = some op →
    ∃ op', fetchAt ops' a' = some op' ∧ Op.Alike χ r r' op op'
  next : ∀ ⦃a a' op⦄, χ.stands a a' → fetchAt ops a = some op → op ≠ .ret →
    χ.stands (a + 1) (a' + 1)

theorem Chart.Maps.mono {χ : Chart} {r r' s s' : Registry} {ops ops' : Array Op}
    (h : χ.Maps r r' ops ops') (hr : r.KeptBy s) (hr' : r'.KeptBy s') : χ.Maps s s' ops ops' where
  op := by
    intro a a' op hstands hop
    obtain ⟨op', hop', halike⟩ := h.op hstands hop
    exact ⟨op', hop', halike.mono hr hr'⟩
  next := h.next

/-! ## Machines -/

/-- Loops over the same code. -/
structure Loop.Alike (B : Int → Int → Prop) (l l' : Loop) : Prop where
  cond : Code.Alike B l.cond l'.cond
  body : Code.Alike B l.body l'.body

/-- The same word with the same definition. -/
structure Entry.Alike (B : Int → Int → Prop) (r r' : Registry) (e e' : Handle × Code) : Prop where
  name : r.SameName r' e.1 e'.1
  code : Code.Alike B e.2 e'.2

theorem Entry.Alike.imp {B B' : Int → Int → Prop} {r r' s s' : Registry} {e e' : Handle × Code}
    (h : Entry.Alike B r r' e e') (hB : ∀ ⦃a a'⦄, B a a' → B' a a') (hr : r.KeptBy s)
    (hr' : r'.KeptBy s') : Entry.Alike B' s s' e e' :=
  ⟨h.name.mono hr hr', h.code.imp hB⟩

/-- Pending calls that go back to addresses that belong together. -/
structure Chart.Returns (χ : Chart) (size size' : Nat) (a a' : Int) : Prop where
  inside : a < size
  inside' : a' < size'
  stands : χ.stands (a + 1) (a' + 1)

/-- The machines stand at the same instruction of the same code, with the same data and the same
pending, all up to names and addresses. -/
structure Machine.Parallel (χ : Chart) (m m' : Machine) : Prop where
  distinct : m.symbols.Distinct
  distinct' : m'.symbols.Distinct
  program : χ.Maps m.symbols m'.symbols m.program.ops m'.program.ops
  pc : χ.stands m.pc m'.pc
  stack : List.Forall₂ (Value.Alike χ.starts m.symbols m'.symbols) m.stack.items m'.stack.items
  calls : List.Forall₂ (χ.Returns m.program.ops.size m'.program.ops.size) m.calls.items
    m'.calls.items
  loops : List.Forall₂ (Loop.Alike χ.starts) m.loops m'.loops
  words : List.Forall₂ (Entry.Alike χ.starts m.symbols m'.symbols) m.words.entries
    m'.words.entries
  stackLimit : m.stackLimit = m'.stackLimit
  callLimit : m.callLimit = m'.callLimit

namespace Machine.Parallel

variable {χ : Chart} {m m' : Machine}

/-- Names may be added on both sides. -/
theorem setSymbols (h : m.Parallel χ m') {r r' : Registry} (hr : m.symbols.KeptBy r)
    (hr' : m'.symbols.KeptBy r') (hdistinct : r.Distinct) (hdistinct' : r'.Distinct) :
    Parallel χ { m with symbols := r } { m' with symbols := r' } where
  distinct := hdistinct
  distinct' := hdistinct'
  program := h.program.mono hr hr'
  pc := h.pc
  stack := h.stack.imp fun _ _ hv => hv.mono hr hr'
  calls := h.calls
  loops := h.loops
  words := h.words.imp fun _ _ he => he.imp (fun _ _ hB => hB) hr hr'
  stackLimit := h.stackLimit
  callLimit := h.callLimit

theorem intern (h : m.Parallel χ m') (n : Name) :
    Parallel χ { m with symbols := (m.symbols.intern n).1 }
      { m' with symbols := (m'.symbols.intern n).1 } :=
  h.setSymbols (m.symbols.keptBy_intern n) (m'.symbols.keptBy_intern n) (h.distinct.intern n)
    (h.distinct'.intern n)

theorem setStack (h : m.Parallel χ m') {s s' : Stack Value} {pc pc' : Int}
    (hstack : List.Forall₂ (Value.Alike χ.starts m.symbols m'.symbols) s.items s'.items)
    (hpc : χ.stands pc pc') :
    Parallel χ { m with stack := s, pc := pc } { m' with stack := s', pc := pc' } :=
  ⟨h.distinct, h.distinct', h.program, hpc, hstack, h.calls, h.loops, h.words, h.stackLimit,
    h.callLimit⟩

theorem advance (h : m.Parallel χ m') (hnext : χ.stands (m.pc + 1) (m'.pc + 1)) :
    m.advance.Parallel χ m'.advance :=
  h.setStack h.stack hnext

theorem drop (h : m.Parallel χ m') (n : Nat) : (m.drop n).Parallel χ (m'.drop n) :=
  h.setStack (List.forall₂_drop n h.stack) h.pc

theorem height (h : m.Parallel χ m') : m.stack.height = m'.stack.height := by
  rw [m.stack.height_eq, m'.stack.height_eq, h.stack.length_eq]

theorem stack_full (h : m.Parallel χ m') :
    m.stack.full m.stackLimit = m'.stack.full m'.stackLimit := by
  rw [Stack.full, Stack.full, h.stackLimit, h.height]

theorem calls_full (h : m.Parallel χ m') :
    m.calls.full m.callLimit = m'.calls.full m'.callLimit := by
  rw [Stack.full, Stack.full, h.callLimit, m.calls.height_eq, m'.calls.height_eq,
    h.calls.length_eq]

theorem formatStack (h : m.Parallel χ m')
    (hplain : Fixes χ.starts ∨ ∀ v ∈ m.stack.items, v.code? = none) :
    m.formatStack = m'.formatStack := by
  rw [Machine.formatStack, Machine.formatStack, Value.formatList, Value.formatList, Machine.values,
    Machine.values, List.map_reverse, List.map_reverse, Value.format_of_alike h.stack hplain]

/-- The stacks are both empty, or have tops that are alike. -/
theorem top (h : m.Parallel χ m') :
    (m.stack.items = [] ∧ m'.stack.items = []) ∨
      ∃ v v' vs vs', m.stack.items = v :: vs ∧ m'.stack.items = v' :: vs' ∧
        Value.Alike χ.starts m.symbols m'.symbols v v' ∧
        List.Forall₂ (Value.Alike χ.starts m.symbols m'.symbols) vs vs' := by
  have hstack := h.stack
  generalize m.stack.items = vs at hstack ⊢
  generalize m'.stack.items = vs' at hstack ⊢
  cases hstack with
  | nil => exact Or.inl ⟨rfl, rfl⟩
  | cons hv hvs => exact Or.inr ⟨_, _, _, _, rfl, rfl, hv, hvs⟩

end Machine.Parallel

/-! ## Words -/

section

variable {B : Int → Int → Prop} {r r' : Registry} (hr : r.Distinct) (hr' : r'.Distinct)
  {es es' : List (Handle × Code)} (h : List.Forall₂ (Entry.Alike B r r') es es')

include hr hr' h

/-- A word has the same definition on both sides. -/
theorem Entry.lookup_alike {w w' : Handle} (hw : r.SameName r' w w') :
    Option.Rel (Code.Alike B) (es.lookup w) (es'.lookup w') := by
  induction h with
  | nil => exact .none
  | @cons e e' es es' he _ ih =>
    rw [List.lookup_cons, List.lookup_cons]
    by_cases heq : w = e.1
    · have heq' : w' = e'.1 := (hw.eq_iff hr hr' he.name).1 heq
      simpa [heq, heq'] using Option.Rel.some he.code
    · have heq' : w' ≠ e'.1 := mt (hw.eq_iff hr hr' he.name).2 heq
      have hbeq : (w == e.1) = false := by simp [heq]
      have hbeq' : (w' == e'.1) = false := by simp [heq']
      rw [hbeq, hbeq']
      exact ih

/-- A definition takes the place of the same earlier one. -/
theorem Entry.define_alike {w w' : Handle} (hw : r.SameName r' w w') {c c' : Code}
    (hc : Code.Alike B c c') :
    List.Forall₂ (Entry.Alike B r r') (Dictionary.define ⟨es⟩ w c).entries
      (Dictionary.define ⟨es'⟩ w' c').entries := by
  refine .cons ⟨hw, hc⟩ ?_
  show List.Forall₂ _ (es.filter fun e => e.1 ≠ w) (es'.filter fun e => e.1 ≠ w')
  induction h with
  | nil => exact .nil
  | @cons e e' es es' he _ ih =>
    rw [List.filter_cons, List.filter_cons]
    by_cases heq : e.1 = w
    · have heq' : e'.1 = w' := (he.name.eq_iff hr hr' hw).1 heq
      simpa [heq, heq'] using ih
    · have heq' : e'.1 ≠ w' := mt (he.name.eq_iff hr hr' hw).2 heq
      rw [if_pos (by simpa using heq), if_pos (by simpa using heq')]
      exact .cons he ih

end

end StackLang
