import Mathlib
import StackLang.Proofs.Invariants
import StackLang.Proofs.Isolation

/-!
# Equality by handle is equality by content

A value is compared field by field, and a string or symbol is no more than a handle. This compares
what the values mean, because no session ever has a value that is not canonical: a field that its
kind does not use is empty, and its handle has a name of the right scope. Since no name has two
handles, equal texts are equal handles, whoever has interned them.

* `Record`, `Value.record`: the fields of a value.
* `Record.Canonical`, `Record.Canonical.eq_iff`: canonical values are equal if their kinds and their
  contents are.
* `Host.Sane`: the invariant of sessions that share a registry (`act_sane`, `after_sane`).
* `Host.equal_iff_same_content`: all values are canonical, and `=` compares contents.
-/

namespace StackLang

/-! ## Fields of values -/

/-- The fields of a value. Each kind uses at most one of the last three. -/
structure Record where
  kind : Kind
  int : Int64
  handle : Handle
  code : Code
deriving DecidableEq

/-- What a value means: an integer, the text of a symbol or string, or a tag and an address of code.
A truth value means no more than its kind. -/
inductive Content where
  | none
  | integer (n : Int64)
  | text (s : Bytes)
  | code (tag : UInt8) (address : Int)
deriving DecidableEq

namespace Record

/-- The content of the field that the kind uses. -/
def content (r : Registry) (x : Record) : Content :=
  match x.kind with
  | .bool _ => .none
  | .int => .integer x.int
  | .sym => .text (r.text x.handle)
  | .str => .text (r.text x.handle)
  | .code => .code x.code.tag x.code.address
  | .other _ => .none

/-- Code that is not there. -/
def noCode : Code := .other 0 0

/-- The kind is one of the language, and fields that it does not use are empty. The handle of a
symbol has the name of a word, and that of a string the name of a string. Code is a block or a
builtin. -/
def Canonical (r : Registry) (x : Record) : Prop :=
  match x.kind with
  | .bool _ => x.int = 0 ∧ x.handle = 0 ∧ x.code = noCode
  | .int => x.handle = 0 ∧ x.code = noCode
  | .sym => x.int = 0 ∧ x.code = noCode ∧ ∃ s, r.name? x.handle = some (.ofWord s)
  | .str => x.int = 0 ∧ x.code = noCode ∧ ∃ s, r.name? x.handle = some (.ofString s)
  | .code => x.int = 0 ∧ x.handle = 0 ∧ ((∃ a, x.code = .block a) ∨ ∃ i, x.code = .builtin i)
  | .other _ => False

theorem Canonical.mono {r r' : Registry} {x : Record} (h : x.Canonical r) (hr : r.KeptBy r') :
    x.Canonical r' := by
  obtain ⟨kind, n, handle, c⟩ := x
  cases kind with
  | sym =>
    obtain ⟨hn, hc, s, hname⟩ := h
    exact ⟨hn, hc, s, hr hname⟩
  | str =>
    obtain ⟨hn, hc, s, hname⟩ := h
    exact ⟨hn, hc, s, hr hname⟩
  | _ => exact h

/-- Code that can run is told apart by its tag and its address. -/
theorem code_eq {c c' : Code} (hc : (∃ a, c = .block a) ∨ ∃ i, c = .builtin i)
    (hc' : (∃ a, c' = .block a) ∨ ∃ i, c' = .builtin i) (htag : c.tag = c'.tag)
    (haddress : c.address = c'.address) : c = c' := by
  rcases hc with ⟨a, rfl⟩ | ⟨a, rfl⟩ <;> rcases hc' with ⟨a', rfl⟩ | ⟨a', rfl⟩
  · exact congrArg Code.block haddress
  · simp [Code.tag] at htag
  · simp [Code.tag] at htag
  · exact congrArg Code.builtin haddress

/-- Canonical values are equal if and only if they are of one kind and have the same content. -/
theorem Canonical.eq_iff {r : Registry} (hr : r.Distinct) {x y : Record} (hx : x.Canonical r)
    (hy : y.Canonical r) : x = y ↔ x.kind = y.kind ∧ x.content r = y.content r := by
  constructor
  · rintro rfl
    exact ⟨rfl, rfl⟩
  · rintro ⟨hkind, hcontent⟩
    obtain ⟨kind, n, handle, c⟩ := x
    obtain ⟨kind', n', handle', c'⟩ := y
    obtain rfl : kind = kind' := hkind
    cases kind with
    | bool b =>
      obtain ⟨rfl, rfl, rfl⟩ := hx
      obtain ⟨rfl, rfl, rfl⟩ := hy
      rfl
    | int =>
      obtain ⟨rfl, rfl⟩ := hx
      obtain ⟨rfl, rfl⟩ := hy
      obtain rfl : n = n' := Content.integer.inj hcontent
      rfl
    | sym =>
      obtain ⟨rfl, rfl, s, hs⟩ := hx
      obtain ⟨rfl, rfl, s', hs'⟩ := hy
      have htext : r.text handle = r.text handle' := Content.text.inj hcontent
      rw [Registry.text_of_word hs, Registry.text_of_word hs'] at htext
      rw [← htext] at hs'
      obtain rfl : handle = handle' := hr hs hs'
      rfl
    | str =>
      obtain ⟨rfl, rfl, s, hs⟩ := hx
      obtain ⟨rfl, rfl, s', hs'⟩ := hy
      have htext : r.text handle = r.text handle' := Content.text.inj hcontent
      rw [Registry.text_of_string hs, Registry.text_of_string hs'] at htext
      rw [← htext] at hs'
      obtain rfl : handle = handle' := hr hs hs'
      rfl
    | code =>
      obtain ⟨rfl, rfl, hc⟩ := hx
      obtain ⟨rfl, rfl, hc'⟩ := hy
      obtain ⟨htag, haddress⟩ := Content.code.inj hcontent
      obtain rfl : c = c' := code_eq hc hc' htag haddress
      rfl
    | other tag => exact hx.elim

end Record

namespace Value

def record (v : Value) : Record :=
  ⟨v.kind, v.int?.getD 0, v.handle?.getD 0, v.code?.getD Record.noCode⟩

/-- Values are equal if all fields are. -/
theorem record_inj {v u : Value} : v.record = u.record ↔ v = u := by
  constructor
  · intro h
    simp only [record, Record.mk.injEq] at h
    cases v <;> cases u <;> simp_all [kind, int?, handle?, code?]
  · rintro rfl
    rfl

end Value

namespace Tree

/-! ## Where values come from -/

theorem Stands.canonical {r : Registry} {v : Value} {c : Constant} (h : Stands r v c) :
    v.record.Canonical r := by
  cases h with
  | bool b => exact ⟨rfl, rfl, rfl⟩
  | int n => exact ⟨rfl, rfl⟩
  | sym hname => exact ⟨rfl, rfl, _, hname⟩
  | str hname => exact ⟨rfl, rfl, _, hname⟩

theorem Denotes.canonical {r : Registry} {T : Table} {v : Value} {x : Datum}
    (h : Denotes r T v x) : v.record.Canonical r := by
  cases h with
  | constant h => exact h.canonical
  | code h =>
    refine ⟨rfl, rfl, ?_⟩
    cases h with
    | block _ => exact Or.inl ⟨_, rfl⟩
    | builtin _ => exact Or.inr ⟨_, rfl⟩

/-- The values of a sound machine are canonical. -/
theorem Sound.canonical {r : Registry} {T : Table} {m : Machine} {σ : State} (h : Sound r T m σ)
    {v : Value} (hv : v ∈ m.stack.items) : v.record.Canonical m.symbols := by
  have hstack := h.represents.stack
  generalize m.stack.items = vs at hstack hv
  generalize σ.stack = xs at hstack
  induction hstack with
  | nil => cases hv
  | cons hdenotes _ ih =>
    rcases List.mem_cons.1 hv with rfl | hv
    · exact hdenotes.canonical
    · exact ih hv

section

variable {r : Registry} {T : Table} {p : Nat} {code : List Op} {v : Value}

theorem Encodes.canonical {item : Item} (h : Encodes r T p item code) (hv : .push v ∈ code) :
    v.record.Canonical r := by
  cases h with
  | constant h =>
    obtain rfl : v = _ := by simpa using hv
    exact h.canonical
  | primitive q => cases q <;> simp [Primitive.op] at hv
  | exec => simp at hv
  | choose => simp at hv
  | loop => simp [Draft.loopCode] at hv
  | call _ => simp at hv
  | block _ =>
    obtain rfl : v = _ := by simpa using hv
    exact ⟨rfl, rfl, Or.inl ⟨_, rfl⟩⟩

theorem Assembled.canonical {items : List Item} (h : Assembled r T p items code)
    (hv : .push v ∈ code) : v.record.Canonical r := by
  induction h with
  | nil => cases hv
  | cons hitem _ ih =>
    rcases List.mem_append.1 hv with hv | hv
    · exact hitem.canonical hv
    · exact ih hv

theorem Filled.canonical {blocks : Table} (h : Filled r T p blocks code) (hv : .push v ∈ code) :
    v.record.Canonical r := by
  rcases h.mem_cases hv with heq | ⟨b, -, c, hbody, hv⟩
  · cases heq
  · exact hbody.canonical hv

end

end Tree

namespace Machine

/-- The values that the program pushes are canonical. -/
def PushesCanonical (m : Machine) : Prop :=
  ∀ v, .push v ∈ m.program.ops → v.record.Canonical m.symbols

theorem PushesCanonical.preserved {m m' : Machine} (h : m.PushesCanonical)
    (hpreserves : m.Preserves m') : m'.PushesCanonical := by
  intro v hv
  rw [hpreserves.program] at hv
  exact (h v hv).mono hpreserves.symbols

theorem lasting_pushesCanonical : Lasting PushesCanonical where
  run m op _ h := (op.run_preserves m).imp fun _ => h.preserved
  advance _ h := h
  reset _ h := h

end Machine

namespace Session

open StackLang.Tree

/-- A source that is compiled pushes canonical values only. -/
theorem load_pushesCanonical (s : Session) (src : Bytes) (h : s.machine.PushesCanonical) :
    (s.load src).1.machine.PushesCanonical := by
  rcases s.load_changes src with ⟨t, a, hload, ⟨r, hkept, -, hmachine⟩, -⟩ |
    ⟨t, d, program, hload, hcompile, haccepted⟩
  · rw [hload, hmachine]
    exact fun v hv => (h v hv).mono hkept
  · obtain ⟨hkept, -, -⟩ := Draft.compile_grows
      { symbols := s.machine.symbols, ops := s.machine.program.ops } src
    obtain ⟨tree, new, blockCode, rootCode, -, hcompiled⟩ := compiled_of_compile hcompile []
    rw [hcompile] at hkept
    rw [hload, haccepted.machine]
    intro v hv
    have hv' : .push v ∈ program.ops.toList := Array.mem_toList_iff.2 hv
    rw [hcompiled.ops, List.mem_append, List.mem_append] at hv'
    rcases hv' with hv' | hv' | hv'
    · exact (h v (Array.mem_toList_iff.1 hv')).mono hkept
    · exact hcompiled.filled.canonical hv'
    · exact hcompiled.assembled.canonical hv'

/-- A session that was just set up has no program. -/
theorem new_pushesCanonical (r : Registry) (settings : List Setting) :
    (new r settings).machine.PushesCanonical := by
  obtain ⟨r', words, a, b, hnew⟩ := new_machine r settings
  rw [hnew]
  intro v hv
  simp at hv

end Session

namespace Host

open StackLang.Tree

/-- What an action can make of the session `i` of a host: the session evaluates a source, it finds
more names, or it is set up. -/
inductive Turns (h : Host) (i : Nat) : Session → Prop
  | eval {s : Session} (hs : h.session? i = some s) (budget : Budget) (src : Bytes) :
    h.Turns i (s.eval budget src).1
  | grow {s : Session} {r : Registry} (hs : h.session? i = some s)
    (hkept : s.machine.symbols.KeptBy r) (hr : r.Distinct) : h.Turns i (s.setSymbols r)
  | new {r : Registry} (hr : r.Distinct) (settings : List Session.Setting) :
    h.Turns i (Session.new r settings)

/-- The registry of the host has no name twice, and its sessions are at rest, with canonical values
in their programs. -/
structure Sane (h : Host) : Prop where
  distinct : h.symbols.Distinct
  session : ∀ ⦃i s⦄, h.session? i = some s →
    (∃ T σ, Resting T s.machine σ) ∧ s.machine.PushesCanonical

/-- A session that is not there yet can only be set up. -/
theorem act_new {h : Host} (hdistinct : h.symbols.Distinct) {i : Nat} {s : Session}
    (hnone : h.session? i = none) {a : Action} (hs : (h.act a).1.session? i = some s) :
    h.Turns i s := by
  have hsize : h.members[i]? = none := by simpa [session?] using hnone
  have hle : h.members.size ≤ i := by simpa using hsize
  cases a with
  | eval j budget src =>
    have hsame : (h.act (.eval j budget src)).1.members.size = h.members.size := by
      simp only [act, on]
      cases h.members[j]? with
      | none => rfl
      | some member => simp
    have hnone' : (h.act (.eval j budget src)).1.session? i = none := by
      rw [session?, Array.getElem?_eq_none (by omega), Option.map_none]
    rw [hnone'] at hs
    cases hs
  | add shares settings =>
    by_cases hi : i = h.members.size
    · subst hi
      cases shares with
      | false =>
        obtain rfl : Session.new {} settings = s := by simpa [session?, act, add] using hs
        exact .new Registry.distinct_empty settings
      | true =>
        obtain rfl : Session.new h.symbols settings = s := by
          simpa [session?, act, add, Session.setSymbols_self] using hs
        exact .new hdistinct settings
    · have hnone' : (h.act (.add shares settings)).1.session? i = none := by
        have hlt : (h.act (.add shares settings)).1.members.size ≤ i := by
          simp only [act, add, Array.size_push]
          omega
        rw [session?, Array.getElem?_eq_none hlt, Option.map_none]
      rw [hnone'] at hs
      cases hs

/-- All that can happen to a session in one action. -/
theorem Sane.act_turns {h : Host} (hsane : h.Sane) {a : Action} {i : Nat} {s : Session}
    (hs : (h.act a).1.session? i = some s) : h.Turns i s := by
  cases hbefore : h.session? i with
  | none => exact act_new hsane.distinct hbefore hs
  | some s₀ =>
    by_cases ha : ∃ budget src, a = .eval i budget src
    · obtain ⟨budget, src, rfl⟩ := ha
      rw [(h.act_eval hbefore budget src).1] at hs
      obtain rfl : (s₀.eval budget src).1 = s := Option.some.inj hs
      exact .eval hbefore budget src
    · have hother : ∀ budget src, a ≠ .eval i budget src :=
        fun budget src heq => ha ⟨budget, src, heq⟩
      obtain ⟨⟨T, σ, hresting⟩, -⟩ := hsane.session hbefore
      obtain ⟨r, hs', hkept, hr⟩ := (h.act_grows a).session (h.act_members hbefore a hother) hbefore
        hsane.distinct hresting.sound.distinct
      rw [hs'] at hs
      obtain rfl : s₀.setSymbols r = s := Option.some.inj hs
      exact .grow hbefore hkept hr

theorem Sane.act {h : Host} (hsane : h.Sane) (a : Action) : (h.act a).1.Sane where
  distinct := (h.act_grows a).distinct hsane.distinct
  session := by
    intro i s hs
    cases hsane.act_turns hs with
    | eval hbefore budget src =>
      obtain ⟨⟨T, σ, hresting⟩, hpushes⟩ := hsane.session hbefore
      obtain ⟨⟨T', σ', hresting', -⟩, -⟩ := Session.eval_evaluated hresting budget src
      have hload := Session.load_pushesCanonical _ src hpushes
      exact ⟨⟨T', σ', hresting'⟩,
        Session.eval_ensures Machine.lasting_pushesCanonical hload budget⟩
    | grow hbefore hkept hr =>
      obtain ⟨⟨T, σ, hresting⟩, hpushes⟩ := hsane.session hbefore
      exact ⟨⟨T, σ, hresting.setSymbols hkept hr⟩, fun v hv => (hpushes v hv).mono hkept⟩
    | new hr settings =>
      obtain ⟨σ, hresting⟩ := Session.new_resting hr settings
      exact ⟨⟨[], σ, hresting⟩, Session.new_pushesCanonical _ settings⟩

theorem after_sane {h : Host} (hsane : h.Sane) (actions : List Action) :
    (h.after actions).Sane := by
  induction actions generalizing h with
  | nil => exact hsane
  | cons a actions ih => exact ih (hsane.act a)

theorem sane_of_names (names : List Name) : Host.Sane { symbols := .of names } where
  distinct := Registry.distinct_of names
  session i s hs := by simp [session?] at hs

/-- What holds of a machine that was just set up, and is lost neither in an evaluation nor when
names are added, holds of all sessions of a host. -/
theorem after_keeps {P : Machine → Prop} (hP : Machine.Lasting P)
    (hload : ∀ (s : Session) src, P s.machine → P (s.load src).1.machine)
    (hnames : ∀ (s : Session) r, s.machine.symbols.KeptBy r → P s.machine →
      P (s.setSymbols r).machine)
    (hnew : ∀ r settings, P (Session.new r settings).machine) {h : Host} (hsane : h.Sane)
    (hh : ∀ i s, h.session? i = some s → P s.machine) (actions : List Action) {i : Nat}
    {s : Session} (hs : (h.after actions).session? i = some s) : P s.machine := by
  induction actions generalizing h with
  | nil => exact hh i s hs
  | cons a actions ih =>
    refine ih (hsane.act a) ?_ hs
    intro j t ht
    cases hsane.act_turns ht with
    | eval hbefore budget src =>
      exact Session.eval_ensures hP (hload _ src (hh j _ hbefore)) budget
    | grow hbefore hkept _ => exact hnames _ _ hkept (hh j _ hbefore)
    | new _ settings => exact hnew _ settings

end Host

/-! ## Equality -/

namespace Session

open StackLang.Tree

/-- At rest, and in all states of an evaluation: no name has two handles, and all values on the
stack and in the program are canonical. -/
theorem canonical_of_visits {T : Table} {s t : Session} {σ : State}
    (hresting : Resting T s.machine σ) (hpushes : s.machine.PushesCanonical)
    (ht : t = s ∨ ∃ src, s.Visits src t) :
    t.machine.symbols.Distinct ∧
      (∀ v ∈ t.machine.stack.items, v.record.Canonical t.machine.symbols) ∧
      t.machine.PushesCanonical := by
  have hboth : Orderly t.machine ∧ t.machine.PushesCanonical := by
    rcases ht with rfl | ⟨src, hvisits⟩
    · exact ⟨hresting.orderly, hpushes⟩
    · exact ⟨hvisits.orderly hresting, hvisits.ensures Machine.lasting_pushesCanonical
        (load_pushesCanonical s src hpushes)⟩
  obtain ⟨⟨⟨r, T', σ', hsound⟩, -⟩, hprogram⟩ := hboth
  exact ⟨hsound.distinct, fun v hv => hsound.canonical hv, hprogram⟩

end Session

namespace Op

/-- `=` compares kinds and contents, if its operands are canonical. -/
theorem run_eq_canonical {m : Machine} (hr : m.symbols.Distinct) {u v : Value} {rest : List Value}
    (hitems : m.stack.items = v :: u :: rest) (hu : u.record.Canonical m.symbols)
    (hv : v.record.Canonical m.symbols) :
    Op.eq.run m = (m.drop 2).push (.bool (u.kind = v.kind ∧
      u.record.content m.symbols = v.record.content m.symbols)) := by
  have hiff : u = v ↔ u.kind = v.kind ∧
      u.record.content m.symbols = v.record.content m.symbols :=
    Value.record_inj.symm.trans (hu.eq_iff hr hv)
  simp only [Op.run, hitems, hiff]

/-- Values that are pushed on canonical ones. -/
theorem push_canonical {m : Machine} {r : Registry} (hr : m.symbols.KeptBy r)
    (hm : ∀ v ∈ m.stack.items, v.record.Canonical m.symbols) (n : Nat) {v : Value}
    (hv : v.record.Canonical r) :
    ({ m.drop n with symbols := r }.push v).Ensures fun m' =>
      ∀ u ∈ m'.stack.items, u.record.Canonical m'.symbols := by
  have hdrop : ∀ u ∈ m.stack.items.drop n, u.record.Canonical r :=
    fun u hu => (hm u (List.mem_of_mem_drop hu)).mono hr
  unfold Machine.push
  split
  · exact hdrop
  · intro u hu
    rcases List.mem_cons.1 hu with rfl | hu
    · exact hv
    · exact hdrop u hu

/-- Whatever `+` makes is canonical. -/
theorem run_add_canonical {m : Machine}
    (hm : ∀ v ∈ m.stack.items, v.record.Canonical m.symbols) :
    (Op.add.run m).Ensures fun m' => ∀ v ∈ m'.stack.items, v.record.Canonical m'.symbols := by
  rw [Op.run, runAdd]
  split
  · split
    · exact push_canonical (.refl _) hm 2 ⟨rfl, rfl⟩
    · rename_i a b _
      have hname := m.symbols.name?_intern (m.symbols.joined a b)
      rw [Registry.joined_eq] at hname
      exact push_canonical (m.symbols.keptBy_intern _) hm 2 ⟨rfl, rfl, _, hname⟩
    · exact hm
  · exact hm

/-- `+` of two strings is the string that their texts make together. -/
theorem run_add_strings {m : Machine} (hr : m.symbols.Distinct) {a b : Handle} {rest : List Value}
    (hitems : m.stack.items = .str b :: .str a :: rest) :
    ∃ r h, Op.add.run m = { m.drop 2 with symbols := r }.push (.str h) ∧ m.symbols.KeptBy r ∧
      r.Distinct ∧ r.text h = m.symbols.text a ++ m.symbols.text b := by
  have hname := m.symbols.name?_intern (m.symbols.joined a b)
  rw [Registry.joined_eq] at hname
  refine ⟨_, _, ?_, m.symbols.keptBy_intern _, hr.intern _, Registry.text_of_string hname⟩
  simp only [Op.run, runAdd, hitems, Registry.joined_eq]

end Op

namespace Host

open StackLang.Tree

/-- Sessions are set up in a host and evaluate sources, in any order and with any settings. Take one
of them, at rest or in any state of its next evaluation. All values on its stack and in its program
are canonical, and what `+` makes is canonical again. So `=` says that two values are of one kind
and have the same content, also for strings that `+` has made of others. -/
theorem equal_iff_same_content (names : List Name) (actions : List Action) {i : Nat}
    {s t : Session} (hs : (Host.after { symbols := .of names } actions).session? i = some s)
    (ht : t = s ∨ ∃ src, s.Visits src t) :
    (∀ v ∈ t.machine.stack.items, v.record.Canonical t.machine.symbols) ∧
    (∀ v, .push v ∈ t.machine.program.ops → v.record.Canonical t.machine.symbols) ∧
    (∀ u v rest, t.machine.stack.items = v :: u :: rest →
      Op.eq.run t.machine = (t.machine.drop 2).push (.bool (u.kind = v.kind ∧
        u.record.content t.machine.symbols = v.record.content t.machine.symbols))) ∧
    ((Op.add.run t.machine).Ensures fun m => ∀ v ∈ m.stack.items, v.record.Canonical m.symbols) ∧
    ∀ a b rest, t.machine.stack.items = .str b :: .str a :: rest →
      ∃ r h, Op.add.run t.machine = { t.machine.drop 2 with symbols := r }.push (.str h) ∧
        t.machine.symbols.KeptBy r ∧ r.Distinct ∧
        r.text h = t.machine.symbols.text a ++ t.machine.symbols.text b := by
  obtain ⟨⟨T, σ, hresting⟩, hpushes⟩ := (after_sane (sane_of_names names) actions).session hs
  obtain ⟨hdistinct, hstack, hprogram⟩ := Session.canonical_of_visits hresting hpushes ht
  refine ⟨hstack, hprogram, ?_, Op.run_add_canonical hstack, ?_⟩
  · intro u v rest hitems
    exact Op.run_eq_canonical hdistinct hitems (hstack u (by simp [hitems]))
      (hstack v (by simp [hitems]))
  · intro a b rest hitems
    exact Op.run_add_strings hdistinct hitems

/-- A string that is made in two ways by one session, and was interned by another one before. -/
theorem equal_iff_same_content_joined :
    ∃ s, (Host.after { symbols := .of [] } [.add true [], .add true [],
        .eval 0 { polls := 9 } (lit "\"abc\""),
        .eval 1 { polls := 9 } (lit ":abc \"ab\" \"c\" + \"a\" \"bc\" +")]).session? 1 = some s ∧
      s.machine.stack.items = [.str 4, .str 4, .sym 5] ∧
      (∀ v ∈ s.machine.stack.items, v.record.Canonical s.machine.symbols) ∧
      Op.eq.run s.machine = (s.machine.drop 2).push (.bool true) := by
  have hitems : ((Host.after { symbols := .of [] } [.add true [], .add true [],
      .eval 0 { polls := 9 } (lit "\"abc\""),
      .eval 1 { polls := 9 } (lit ":abc \"ab\" \"c\" + \"a\" \"bc\" +")]).session? 1).map
        (fun s => s.machine.stack.items) = some [.str 4, .str 4, .sym 5] := by cbv
  obtain ⟨s, hs, hstack⟩ := Option.map_eq_some_iff.1 hitems
  obtain ⟨hcanonical, -, heq, -⟩ := equal_iff_same_content [] _ hs (Or.inl rfl)
  refine ⟨s, hs, hstack, hcanonical, ?_⟩
  rw [heq _ _ _ hstack, decide_eq_true ⟨rfl, rfl⟩]

end Host

end StackLang
