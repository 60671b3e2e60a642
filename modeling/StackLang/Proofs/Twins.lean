import StackLang.Machine.Dump
import StackLang.Proofs.Lockstep

/-!
# Twins

Machines that differ in the numbers of their names at most. Whatever is shown of them is the same,
and sources compile to the same code for both, with the same errors.

* `Machine.Twins`: such machines; `dump_eq` and its kin say that they look the same.
* `Draft.Twins`: drafts of programs that differ likewise.
* `Draft.compile_twins`: a source leads such drafts to such drafts, and to the same program or error.
-/

namespace StackLang

/-- The same code up to the numbers of names. -/
abbrev SameCode (r r' : Registry) : List Op → List Op → Prop :=
  List.Forall₂ (Op.Alike .same r r')

theorem SameCode.mono {r r' s s' : Registry} {code code' : List Op} (h : SameCode r r' code code')
    (hr : r.KeptBy s) (hr' : r'.KeptBy s') : SameCode s s' code code' :=
  h.imp fun _ _ hop => hop.mono hr hr'

/-- Code that is the same is the same at every address. -/
theorem SameCode.maps {r r' : Registry} {ops ops' : Array Op}
    (h : SameCode r r' ops.toList ops'.toList) : Chart.same.Maps r r' ops ops' where
  op := by
    rintro a _ op rfl hop
    cases a with
    | negSucc n => cases hop
    | ofNat n =>
      have hn : ops.toList[n]? = some op := by rw [Array.getElem?_toList]; exact hop
      obtain ⟨op', hop', halike⟩ := Op.alike_at h hn
      rw [Array.getElem?_toList] at hop'
      exact ⟨op', hop', halike⟩
  next := by
    rintro a _ op rfl - -
    rfl

namespace Machine

/-- The machines differ in the numbers of their names at most. -/
structure Twins (m m' : Machine) : Prop where
  parallel : m.Parallel .same m'
  entry : m.program.entry = m'.program.entry
  size : m.program.ops.size = m'.program.ops.size

namespace Twins

variable {m m' : Machine} (h : m.Twins m')

include h

theorem pc_eq : m.pc = m'.pc := h.parallel.pc

theorem running_eq : m.running = m'.running := by
  rw [running, running, h.pc_eq, h.size]

theorem code : SameCode m.symbols m'.symbols m.program.ops.toList m'.program.ops.toList := by
  refine List.forall₂_iff_get.2 ⟨by simpa using h.size, fun i hi hi' => ?_⟩
  have hop : fetchAt m.program.ops i = some m.program.ops.toList[i] := by
    show m.program.ops[i]? = _
    rw [← Array.getElem?_toList]
    exact List.getElem?_eq_getElem hi
  obtain ⟨op', hop', halike⟩ := h.parallel.program.op (a := i) rfl hop
  have hop'' : m'.program.ops.toList[i]? = some op' := by
    rw [Array.getElem?_toList]
    exact hop'
  rw [List.getElem?_eq_getElem hi', Option.some.injEq] at hop''
  rw [List.get_eq_getElem, List.get_eq_getElem]
  exact hop'' ▸ halike

/-- The same words have the same definitions. -/
theorem entries_eq : m.words.entries.map (fun e => (m.symbols.text e.1, e.2)) =
    m'.words.entries.map fun e => (m'.symbols.text e.1, e.2) := by
  have hwords := h.parallel.words
  generalize m.words.entries = es at hwords ⊢
  generalize m'.words.entries = es' at hwords ⊢
  induction hwords with
  | nil => rfl
  | cons he _ ih =>
    rw [List.map_cons, List.map_cons, ih, he.name.text, he.code.eq_of_fixes Chart.same_fixes]

theorem calls_eq : m.calls.items = m'.calls.items := by
  have hcalls := h.parallel.calls
  generalize m.calls.items = calls at hcalls ⊢
  generalize m'.calls.items = calls' at hcalls ⊢
  induction hcalls with
  | nil => rfl
  | @cons a a' _ _ hreturns _ ih =>
    have hbehind : a + 1 = a' + 1 := hreturns.stands
    have heq : a = a' := by omega
    rw [ih, heq]

/-! ### What is shown -/

theorem formatStack_eq : m.formatStack = m'.formatStack :=
  h.parallel.formatStack (Or.inl (Chart.starts_fixes Chart.same_fixes))

theorem formatCalls_eq : m.formatCalls = m'.formatCalls := by
  rw [formatCalls, formatCalls, h.calls_eq]

theorem formatProgram_eq : m.program.ops.toList.map (Op.format m.symbols) =
    m'.program.ops.toList.map (Op.format m'.symbols) := by
  have hcode := h.code
  generalize m.program.ops.toList = code at hcode ⊢
  generalize m'.program.ops.toList = code' at hcode ⊢
  induction hcode with
  | nil => rfl
  | cons hop _ ih => rw [List.map_cons, List.map_cons, ih, hop.format Chart.same_fixes]

theorem blockStarts_eq : m.blockStarts = m'.blockStarts := by
  have hcode := h.code
  have hentries := congrArg (List.filterMap fun e => blockStarts.start? e.2) h.entries_eq
  rw [List.filterMap_map, List.filterMap_map] at hentries
  unfold blockStarts
  refine congrArg₂ _ ?_ hentries
  generalize m.program.ops.toList = code at hcode ⊢
  generalize m'.program.ops.toList = code' at hcode ⊢
  induction hcode with
  | nil => rfl
  | @cons op op' _ _ hop _ ih =>
    have hpushed : blockStarts.pushed op = blockStarts.pushed op' := by
      cases hop with
      | push hv =>
        cases hv with
        | code hc => rw [hc.eq_of_fixes Chart.same_fixes]
        | _ => rfl
      | loopExit h => rfl
      | jump h => rfl
      | call hname => rfl
      | plain h => rfl
    rw [List.filterMap_cons, List.filterMap_cons, hpushed, ih]

theorem dumpOps_eq (width : Nat) (starts : List Int) {code code' : List Op}
    (hcode : SameCode m.symbols m'.symbols code code') (first : Nat) :
    (code.zipIdx first).flatMap (fun (op, address) => m.dumpOp width starts op address) =
      (code'.zipIdx first).flatMap fun (op, address) => m'.dumpOp width starts op address := by
  induction hcode generalizing first with
  | nil => rfl
  | cons hop _ ih =>
    rw [List.zipIdx_cons, List.zipIdx_cons, List.flatMap_cons, List.flatMap_cons, ih]
    simp only [dumpOp, hop.format Chart.same_fixes, h.pc_eq, h.entry]

/-- Twins have the same dump. -/
theorem dump_eq (width : Option Nat) : m.dump width = m'.dump width := by
  have hcodes : m.codes = m'.codes := h.entries_eq
  have hdefinitions : m.definitions = m'.definitions := by rw [definitions, definitions, hcodes]
  simp only [dump, h.pc_eq, h.formatStack_eq, h.formatCalls_eq, hdefinitions, h.blockStarts_eq,
    h.size, h.dumpOps_eq _ _ h.code]

end Twins

/-- Names may be added to twins. -/
theorem Twins.setSymbols {m m' : Machine} (h : m.Twins m') {r r' : Registry}
    (hr : m.symbols.KeptBy r) (hr' : m'.symbols.KeptBy r') (hdistinct : r.Distinct)
    (hdistinct' : r'.Distinct) : Twins { m with symbols := r } { m' with symbols := r' } :=
  ⟨h.parallel.setSymbols hr hr' hdistinct hdistinct', h.entry, h.size⟩

/-- Twins are still twins with what a run made of them, as long as that is in parallel. -/
theorem Twins.preserved {m m' m₁ m₁' : Machine} (h : m.Twins m') (hm : m.Preserves m₁)
    (hm' : m'.Preserves m₁') (hparallel : m₁.Parallel .same m₁') : m₁.Twins m₁' := by
  refine ⟨hparallel, ?_, ?_⟩
  · rw [hm.program, hm'.program, h.entry]
  · rw [hm.program, hm'.program, h.size]

theorem Twins.reset {m m' : Machine} (h : m.Twins m') : m.reset.Twins m'.reset where
  parallel := ⟨h.parallel.distinct, h.parallel.distinct', h.parallel.program,
    congrArg Nat.cast h.size, .nil, .nil, .nil, h.parallel.words, h.parallel.stackLimit,
    h.parallel.callLimit⟩
  entry := h.entry
  size := h.size

/-- Where one twin finds no instruction, neither does the other. -/
theorem Twins.fetch_none {m m' : Machine} (h : m.Twins m') (hfetch : m.fetch? = none) :
    m'.fetch? = none := by
  rw [fetch?_eq] at hfetch ⊢
  rw [← h.pc_eq]
  generalize m.pc = a at hfetch
  cases a with
  | negSucc n => rfl
  | ofNat n =>
    have hle : m.program.ops.size ≤ n := Array.getElem?_eq_none_iff.1 hfetch
    exact Array.getElem?_eq_none (h.size ▸ hle)

end Machine

namespace Draft

/-! ## Drafts -/

/-- Braces that were opened at the same place, behind the same code. -/
structure SameBrace (r r' : Registry) (b b' : OpenBrace) : Prop where
  position : b.position = b'.position
  before : SameCode r r' b.before.toList b'.before.toList

/-- Blocks that were laid out at the same place. -/
structure SameLayout (l l' : Layout) : Prop where
  start : l.start = l'.start
  length : l.length = l'.length

/-- The drafts differ in the numbers of their names at most. -/
structure Twins (d d' : Draft) : Prop where
  ops : SameCode d.symbols d'.symbols d.ops.toList d'.ops.toList
  current : SameCode d.symbols d'.symbols d.current.toList d'.current.toList
  braces : List.Forall₂ (SameBrace d.symbols d'.symbols) d.braces d'.braces
  layouts : List.Forall₂ SameLayout d.layouts d'.layouts

variable {d d' : Draft}

theorem Twins.size_ops (h : d.Twins d') : d.ops.size = d'.ops.size := by
  simpa using h.ops.length_eq

theorem Twins.size_current (h : d.Twins d') : d.current.size = d'.current.size := by
  simpa using h.current.length_eq

theorem Twins.setSymbols (h : d.Twins d') {r r' : Registry} (hr : d.symbols.KeptBy r)
    (hr' : d'.symbols.KeptBy r') : Twins { d with symbols := r } { d' with symbols := r' } where
  ops := h.ops.mono hr hr'
  current := h.current.mono hr hr'
  braces := h.braces.imp fun _ _ hb => ⟨hb.position, hb.before.mono hr hr'⟩
  layouts := h.layouts

theorem Twins.emit (h : d.Twins d') {code code' : List Op}
    (hcode : SameCode d.symbols d'.symbols code code') : (d.emit code).Twins (d'.emit code') where
  ops := h.ops
  current := by
    simp only [Draft.emit, Array.toList_appendList]
    exact List.rel_append h.current hcode
  braces := h.braces
  layouts := h.layouts

/-- A name that is interned on both sides has its own number on each. -/
theorem Twins.emitName (h : d.Twins d') (n : Name) {op : Handle → Op}
    (hop : ∀ {r r' : Registry} {a a' : Handle}, r.SameName r' a a' →
      Op.Alike .same r r' (op a) (op a')) :
    (d.emitName n op).Twins (d'.emitName n op) := by
  have hnamed := h.setSymbols (d.symbols.keptBy_intern n) (d'.symbols.keptBy_intern n)
  exact hnamed.emit (.cons (hop (Registry.sameName_intern _ _ n)) .nil)

theorem relocate_alike {r r' : Registry} {op op' : Op} (h : Op.Alike .same r r' op op')
    (base : Int) : Op.Alike .same r r' (op.relocate base) (op'.relocate base) := by
  cases h with
  | push h => exact .push h
  | call hname => exact .call hname
  | loopExit h => exact .loopExit (congrArg (· + base) h)
  | jump h => exact .jump (congrArg (· + base) h)
  | @plain op h =>
    have hsame : op.relocate base = op := by cases op <;> simp_all [Op.relocate, Op.isPlain]
    rw [hsame]
    exact .plain h

theorem Twins.append (h : d.Twins d') {block block' : Array Op}
    (hblock : SameCode d.symbols d'.symbols block.toList block'.toList) :
    (d.append block).Twins (d'.append block') where
  ops := by
    simp only [Draft.append, Array.toList_append, Array.toList_map, ← h.size_ops]
    refine List.rel_append h.ops ?_
    exact List.forall₂_map_left_iff.2 (List.forall₂_map_right_iff.2
      (hblock.imp fun _ _ hop => relocate_alike hop _))
  current := h.current
  braces := h.braces
  layouts := .cons ⟨h.size_ops, by simpa using hblock.length_eq⟩ h.layouts

/-! ## Tokens -/

/-- Instructions that mention neither a name nor an address. -/
def isClosed : Op → Bool
  | .push (.bool _) => true
  | op => op.isPlain

theorem sameCode_of_closed {code : List Op} (h : code.all isClosed) (r r' : Registry) :
    SameCode r r' code code := by
  refine List.forall₂_same.2 fun op hop => ?_
  have hclosed := List.all_eq_true.1 h op hop
  unfold isClosed at hclosed
  split at hclosed
  · exact .push (.bool _)
  · exact .plain hclosed

theorem reserved_closed {s : Bytes} {code : List Op} (h : reserved.lookup s = some code) :
    code.all isClosed := by
  have hall : reserved.all fun e => e.2.all isClosed := rfl
  obtain ⟨l₁, l₂, hsplit, -⟩ := List.lookup_eq_some_iff.1 h
  exact List.all_eq_true.1 hall (s, code) (by simp [hsplit])

theorem sameCode_loop (r r' : Registry) (n : Nat) :
    SameCode r r' (loopCode n) (loopCode n) :=
  .cons (.plain rfl) (.cons (.plain rfl) (.cons (.loopExit rfl) (.cons (.plain rfl)
    (.cons (.jump rfl) .nil))))

/-- Twins after the same step, with the same error if any. -/
structure SameStep (x x' : Draft × Option ParseError) : Prop where
  twins : x.1.Twins x'.1
  error : x.2 = x'.2

theorem Twins.closeBlock (h : d.Twins d') (p : Position) :
    SameStep (d.closeBlock p) (d'.closeBlock p) := by
  unfold Draft.closeBlock
  have hbraces := h.braces
  rcases hb : d.braces with _ | ⟨brace, braces⟩ <;>
    rcases hb' : d'.braces with _ | ⟨brace', braces'⟩ <;> rw [hb, hb'] at hbraces
  · exact ⟨h, rfl⟩
  · cases hbraces
  · cases hbraces
  · obtain ⟨hbrace, hrest⟩ := List.forall₂_cons.1 hbraces
    have haround : Twins { d with current := brace.before, braces := braces }
        { d' with current := brace'.before, braces := braces' } :=
      ⟨h.ops, hbrace.before, hrest, h.layouts⟩
    have hpush : Op.Alike .same d.symbols d'.symbols (.push (.code (.block d.ops.size)))
        (.push (.code (.block d'.ops.size))) :=
      .push (.code (.block (congrArg Nat.cast h.size_ops)))
    refine ⟨(haround.emit (.cons hpush .nil)).append ?_, rfl⟩
    simp only [Array.toList_push]
    exact List.rel_append h.current (.cons (.plain rfl) .nil)

theorem Twins.word (h : d.Twins d') (p : Position) (s : Bytes) :
    SameStep (d.word p s) (d'.word p s) := by
  unfold Draft.word
  split
  · exact ⟨⟨h.ops, .nil, .cons ⟨rfl, h.current⟩ h.braces, h.layouts⟩, rfl⟩
  split
  · exact h.closeBlock p
  split
  · rw [h.size_current]
    exact ⟨h.emit (sameCode_loop _ _ _), rfl⟩
  split
  · rename_i code hcode
    exact ⟨h.emit (sameCode_of_closed (reserved_closed hcode) _ _), rfl⟩
  · exact ⟨h.emitName (.ofWord s) .call, rfl⟩

theorem Twins.token (h : d.Twins d') (t : Token) : SameStep (d.token t) (d'.token t) := by
  unfold Draft.token
  split
  · split
    · exact ⟨h.emit (.cons (.push (.int _)) .nil), rfl⟩
    · exact ⟨h, rfl⟩
  · exact ⟨h.emitName _ fun hname => .push (.str hname), rfl⟩
  · exact ⟨h.emitName _ fun hname => .push (.sym hname), rfl⟩
  · exact h.word t.position t.text
  · exact ⟨h, rfl⟩

theorem Twins.tokens (h : d.Twins d') (ts : List Token) :
    SameStep (d.tokens ts) (d'.tokens ts) := by
  induction ts generalizing d d' with
  | nil => exact ⟨h, rfl⟩
  | cons t ts ih =>
    obtain ⟨htwins, herror⟩ := h.token t
    rw [Draft.tokens, Draft.tokens]
    generalize d.token t = x at htwins herror ⊢
    generalize d'.token t = x' at htwins herror ⊢
    obtain ⟨d₁, e⟩ := x
    obtain ⟨d₁', e'⟩ := x'
    obtain rfl : e = e' := herror
    cases e with
    | none => exact ih htwins
    | some e => exact ⟨htwins, rfl⟩

/-! ## Sources -/

/-- The same program up to the numbers of names, or the same error. -/
inductive SameResult (r r' : Registry) :
    Except ParseError Program → Except ParseError Program → Prop
  | ok {p p' : Program} (hcode : SameCode r r' p.ops.toList p'.ops.toList)
    (hentry : p.entry = p'.entry) : SameResult r r' (.ok p) (.ok p')
  | error (e : ParseError) : SameResult r r' (.error e) (.error e)

theorem Twins.endError_eq (h : d.Twins d') (ts : Tokens) : d.endError? ts = d'.endError? ts := by
  unfold endError?
  have hbraces := h.braces
  generalize d.braces = bs at hbraces ⊢
  generalize d'.braces = bs' at hbraces ⊢
  cases hbraces with
  | nil => rfl
  | cons hbrace _ => cases ts.unclosed <;> simp [hbrace.position]

/-- A source compiles to the same for both, and if it fails, it fails alike. -/
theorem compile_twins (hops : SameCode d.symbols d'.symbols d.ops.toList d'.ops.toList)
    (src : Bytes) :
    (d.compile src).1.Twins (d'.compile src).1 ∧
      SameResult (d.compile src).1.symbols (d'.compile src).1.symbols (d.compile src).2
        (d'.compile src).2 := by
  have hstart : Twins { d with current := #[], braces := [], layouts := [] }
      { d' with current := #[], braces := [], layouts := [] } :=
    ⟨hops, .nil, .nil, .nil⟩
  obtain ⟨htwins, herror⟩ := hstart.tokens (tokenize src).list
  unfold compile
  simp only
  generalize Draft.tokens { d with current := #[], braces := [], layouts := [] } _ = x
    at htwins herror ⊢
  generalize Draft.tokens { d' with current := #[], braces := [], layouts := [] } _ = x'
    at htwins herror ⊢
  obtain ⟨d₁, e⟩ := x
  obtain ⟨d₁', e'⟩ := x'
  obtain rfl : e = e' := herror
  have hend : d₁.endError? (tokenize src) = d₁'.endError? (tokenize src) := htwins.endError_eq _
  cases e with
  | some e => exact ⟨htwins, .error e⟩
  | none =>
    simp only [← hend]
    cases d₁.endError? (tokenize src) with
    | some e => exact ⟨htwins, .error e⟩
    | none =>
      have happend : (d₁.append d₁.current).Twins (d₁'.append d₁'.current) :=
        Twins.append htwins htwins.current
      exact ⟨happend, .ok happend.ops (congrArg Nat.cast htwins.size_ops)⟩

end Draft

end StackLang
