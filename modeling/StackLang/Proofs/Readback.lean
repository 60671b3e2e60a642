import Mathlib
import StackLang.Proofs.Limits
import StackLang.Proofs.Refinement
import StackLang.Proofs.Scanning

/-!
# Reading back values

The text of a list of values is source text: it compiles to one `push` for each of them. That goes
for truth values, for integers that are not negative, for strings whatever their bytes are, and for
symbols whose name has no white space in it. Strings and symbols get their old handles, since the
registry knows their names.

* `Literal.unquote_quote`, `Decimal.int64?_ofInt`: literals and numbers are read back.
* `Value.Readable`: the values that are read back.
* `Draft.Reads`: what compiling a text does.
* `Session.formatted_values_read_back`: the text of values compiles to them, and rebuilds them.
-/

namespace StackLang

/-! ## Literals -/

namespace Literal

theorem halveQuotes_byte {b : UInt8} (hb : b ≠ Byte.quote) (s : Bytes) :
    halveQuotes (b :: s) = b :: halveQuotes s := by
  cases s with
  | nil => rfl
  | cons c r => simp [halveQuotes, hb]

theorem halveQuotes_doubleQuotes (s : Bytes) : halveQuotes (doubleQuotes s) = s := by
  induction s with
  | nil => rfl
  | cons b s ih =>
    by_cases hb : b = Byte.quote
    · simp [doubleQuotes, hb, halveQuotes, ih]
    · rw [doubleQuotes, if_neg hb, halveQuotes_byte hb, ih]

theorem stripQuotes_quote (s : Bytes) : stripQuotes (quote s) = doubleQuotes s := by
  obtain ⟨c, r, hcons⟩ : ∃ c r, doubleQuotes s ++ [Byte.quote] = c :: r :=
    List.exists_cons_of_ne_nil (by simp)
  have hlast : (c :: r).getLast? = some Byte.quote := by rw [← hcons]; simp
  have hbody : (c :: r).dropLast = doubleQuotes s := by rw [← hcons]; simp
  rw [quote, List.cons_append, hcons, stripQuotes, if_pos ⟨rfl, hlast⟩, hbody]

theorem unquote_quote (s : Bytes) : unquote (quote s) = s := by
  rw [unquote, stripQuotes_quote, halveQuotes_doubleQuotes]

theorem paired_doubleQuotes (s : Bytes) : Token.Paired (doubleQuotes s) := by
  induction s with
  | nil => exact .nil
  | cons b s ih =>
    by_cases hb : b = Byte.quote
    · rw [doubleQuotes, if_pos hb, hb]
      exact .pair ih
    · rw [doubleQuotes, if_neg hb]
      exact .byte hb ih

end Literal

/-! ## Numbers -/

namespace Decimal

theorem isDigit_digit {n : Nat} (h : n < 10) : Byte.isDigit (digit n) = true := by
  have hall : ∀ n < 10, Byte.isDigit (digit n) = true := by decide
  exact hall n h

theorem digitValue_digit {n : Nat} (h : n < 10) : digitValue (digit n) = n := by
  have hall : ∀ n < 10, digitValue (digit n) = n := by decide
  exact hall n h

theorem value_concat (ds : Bytes) (d : UInt8) :
    value (ds ++ [d]) = 10 * value ds + digitValue d := by
  simp [value]

/-- A number is written in digits, the first of which is a digit. -/
theorem ofNat_digits (n : Nat) :
    ∃ d ds, ofNat n = d :: ds ∧ (∀ b ∈ ofNat n, Byte.isDigit b = true) ∧ value (ofNat n) = n := by
  fun_induction ofNat n with
  | case1 n h =>
    refine ⟨digit n, [], rfl, ?_, ?_⟩
    · intro b hb
      rw [List.mem_singleton.1 hb]
      exact isDigit_digit h
    · rw [← List.nil_append [digit n], value_concat, digitValue_digit h]
      exact Nat.zero_add n
  | case2 n h ih =>
    obtain ⟨d, ds, hds, hdigits, hvalue⟩ := ih
    have hlast : n % 10 < 10 := Nat.mod_lt n (by omega)
    refine ⟨d, ds ++ [digit (n % 10)], by rw [hds]; rfl, ?_, ?_⟩
    · intro b hb
      rcases List.mem_append.1 hb with hb | hb
      · exact hdigits b hb
      · rw [List.mem_singleton.1 hb]
        exact isDigit_digit hlast
    · rw [value_concat, hvalue, digitValue_digit hlast]
      omega

theorem nat?_ofNat (n : Nat) : nat? (ofNat n) = some n := by
  obtain ⟨d, ds, hds, hdigits, hvalue⟩ := ofNat_digits n
  have hne : (ofNat n).isEmpty = false := by rw [hds]; rfl
  have hall : (ofNat n).all Byte.isDigit = true := List.all_eq_true.2 hdigits
  simp [nat?, hne, hall, hvalue]

/-- An integer that is not negative is read back. -/
theorem int64?_ofInt {n : Int64} (h : 0 ≤ n.toInt) : int64? (ofInt n.toInt) = some n := by
  obtain ⟨k, hk⟩ := Int.eq_ofNat_of_zero_le h
  obtain ⟨d, ds, hds, hdigits, -⟩ := ofNat_digits k
  have hd : Byte.isDigit d = true := hdigits d (by rw [hds]; exact List.mem_cons_self)
  have hlt : k < 0x8000000000000000 := by
    have := n.toInt_lt
    omega
  have hint : Int64.ofNat k = n := by
    rw [← Int64.ofInt_eq_ofNat, ← hk, Int64.ofInt_toInt]
  have hunsigned : int64?.unsigned (ofNat k) = some n := by
    simp [int64?.unsigned, nat?_ofNat, hlt, hint]
  rw [hk]
  show int64? (ofNat k) = some n
  rw [hds] at hunsigned ⊢
  unfold int64?
  split
  · rename_i heq
    cases heq
    exact absurd hd (by decide)
  · rename_i heq
    cases heq
    exact absurd hd (by decide)
  · exact hunsigned

end Decimal

/-! ## Values -/

/-- A name that has a handle is not registered again. -/
theorem Registry.intern_of_name? {r : Registry} (hr : r.Distinct) {h : Handle} {n : Name}
    (hname : r.name? h = some n) : r.intern n = (r, h) := by
  rcases r.intern_cases n with ⟨-, hnew⟩ | ⟨h', heq, hname'⟩
  · exact absurd hname (hnew h)
  · rw [heq, hr hname hname']

/-- The values whose text is read back. -/
inductive Value.Readable (r : Registry) : Value → Prop
  | bool (b : Bool) : Readable r (.bool b)
  | int {n : Int64} (h : 0 ≤ n.toInt) : Readable r (.int n)
  | str {h : Handle} {s : Bytes} (hname : r.name? h = some (.ofString s)) : Readable r (.str h)
  | sym {h : Handle} {s : Bytes} (hname : r.name? h = some (.ofWord s)) (hs : Token.Solid s) :
    Readable r (.sym h)

/-- A truth value is a word with a meaning of its own. -/
theorem Draft.word_bool (d : Draft) (p : Position) (b : Bool) :
    d.word p ((Value.bool b).format d.symbols .quoted) = (d.emit [.push (.bool b)], none) := by
  cases b with
  | false =>
    have hlookup : reserved.lookup (lit "false") = some [.push (.bool false)] := by decide +kernel
    have hbraces : lit "false" ≠ lit "\x7b" ∧ lit "false" ≠ lit "\x7d" ∧
        lit "false" ≠ lit "while" := by decide +kernel
    simp [Value.format, word, hlookup, hbraces]
  | true =>
    have hlookup : reserved.lookup (lit "true") = some [.push (.bool true)] := by decide +kernel
    have hbraces : lit "true" ≠ lit "\x7b" ∧ lit "true" ≠ lit "\x7d" ∧
        lit "true" ≠ lit "while" := by decide +kernel
    simp [Value.format, word, hlookup, hbraces]

theorem Decimal.spells_ofInt {n : Int64} (h : 0 ≤ n.toInt) :
    Token.Spells .number (ofInt n.toInt) := by
  obtain ⟨k, hk⟩ := Int.eq_ofNat_of_zero_le h
  obtain ⟨d, ds, hds, hdigits, -⟩ := ofNat_digits k
  rw [hk]
  show Token.Spells .number (ofNat k)
  rw [hds] at hdigits ⊢
  obtain ⟨hd, hrest⟩ := List.forall_mem_cons.1 hdigits
  exact .number hd fun b hb => Token.not_space_of_digit (hrest b hb)

/-- A readable value is written as a token, which is compiled to a push of the value. -/
theorem Value.Readable.token {r : Registry} {v : Value} (h : v.Readable r) (hr : r.Distinct) :
    ∃ kind, Token.Spells kind (v.format r .quoted) ∧ ∀ (d : Draft) (p : Position),
      d.symbols = r → d.token ⟨kind, v.format r .quoted, p⟩ = (d.emit [.push v], none) := by
  cases h with
  | bool b =>
    refine ⟨.word, ?_, ?_⟩
    · cases b with
      | false => exact Token.spells_ofFirst (b := 0x66) (by decide) (by decide) (by decide +kernel)
      | true => exact Token.spells_ofFirst (b := 0x74) (by decide) (by decide) (by decide +kernel)
    · rintro d p rfl
      exact d.word_bool p b
  | @int n hn =>
    refine ⟨.number, Decimal.spells_ofInt hn, ?_⟩
    intro d p _
    simp only [Draft.token, Value.format, Decimal.int64?_ofInt hn]
  | @str h s hname =>
    have hformat : (Value.str h).format r .quoted = Literal.quote s := by
      rw [Value.format, Registry.text_of_string hname]
    rw [hformat]
    refine ⟨.string, .string (Literal.paired_doubleQuotes s), ?_⟩
    rintro d p rfl
    simp only [Draft.token, Literal.unquote_quote, Draft.emitName,
      Registry.intern_of_name? hr hname]
  | @sym h s hname hs =>
    have hformat : (Value.sym h).format r .quoted = Byte.colon :: s := by
      rw [Value.format, Registry.text_of_word hname]
    rw [hformat]
    refine ⟨.symbol, .symbol hs, ?_⟩
    rintro d p rfl
    simp only [Draft.token, List.tail_cons, Draft.emitName, Registry.intern_of_name? hr hname]

/-! ## Compiling -/

theorem Bytes.join_cons (sep t : Bytes) (ts : List Bytes) :
    join sep (t :: ts) = t ++ ts.flatMap (sep ++ ·) := by
  induction ts generalizing t with
  | nil => simp [join]
  | cons t' ts ih => rw [join, ih, List.flatMap_cons, List.append_assoc, List.append_assoc]; simp

namespace Draft

theorem isSpace_head (s : Bytes) : ∀ b ∈ (lit " " ++ s).head?, Byte.isSpace b = true := by
  intro b hb
  obtain rfl : Byte.space = b := Option.some.inj hb
  rfl

theorem space_head {r : Registry} (vs : List Value) :
    ∀ b ∈ (vs.flatMap fun v => lit " " ++ v.format r .quoted).head?, Byte.isSpace b = true := by
  cases vs with
  | nil => simp
  | cons v vs =>
    rw [List.flatMap_cons, List.append_assoc]
    exact isSpace_head _

/-- Wherever a text stands, its tokens turn one draft into the other. -/
def Reads (d : Draft) (s : Bytes) (d' : Draft) : Prop :=
  ∀ c, (tokenizeFrom c s).unclosed = none ∧ d.tokens (tokenizeFrom c s).list = (d', none)

theorem reads_nil (d : Draft) : d.Reads [] d := by
  intro c
  have hfinds : Token.Finds c [] (.finished (c.advance [])) := .finished .nil
  rw [tokenizeFrom_finished hfinds.scan_eq]
  exact ⟨rfl, rfl⟩

/-- One more token, and a gap in front of it. -/
theorem Reads.token {d d₁ d₂ : Draft} {gap text rest : Bytes} {kind : Token.Kind}
    (hgap : Token.Gap (text ++ rest) gap) (hspells : Token.Spells kind text)
    (hends : Token.Ends kind rest) (htoken : ∀ p, d.token ⟨kind, text, p⟩ = (d₁, none))
    (h : d₁.Reads rest d₂) : d.Reads (gap ++ (text ++ rest)) d₂ := by
  intro c
  have hfinds : Token.Finds c (gap ++ (text ++ rest)) _ := .token rfl hgap hspells hends
  obtain ⟨hunclosed, htokens⟩ := h ((c.advance gap).advance text)
  rw [tokenizeFrom_token hfinds.scan_eq]
  refine ⟨hunclosed, ?_⟩
  simp only [Tokens.cons, tokens, htoken]
  exact htokens

theorem emit_nil (d : Draft) : d.emit [] = d := by
  simp [emit]

theorem emit_emit (d : Draft) (ops ops' : List Op) :
    (d.emit ops).emit ops' = d.emit (ops ++ ops') := by
  have hcurrent : d.current ++ ops ++ ops' = d.current ++ (ops ++ ops') := by
    apply Array.ext'
    simp
  simp only [emit, hcurrent]

/-- A source whose tokens emit instructions that go to no address compiles to these instructions. -/
theorem compile_of_reads {d : Draft} {src : Bytes} {ops : List Op}
    (hfixed : ∀ op ∈ ops, ∀ base, op.relocate base = op)
    (hreads : { d with current := #[], braces := [], layouts := [] : Draft }.Reads src
      ({ d with current := #[], braces := [], layouts := [] : Draft }.emit ops)) :
    ∃ d', d.compile src = (d', .ok ⟨d.ops ++ ops.toArray, d.ops.size⟩) ∧
      d'.symbols = d.symbols := by
  obtain ⟨hunclosed, htokens⟩ := hreads {}
  have hmap : ops.map (Op.relocate d.ops.size) = ops :=
    (List.map_congr_left fun op hop => hfixed op hop _).trans (List.map_id _)
  have hops : d.ops ++ ((#[] : Array Op) ++ ops).map (Op.relocate d.ops.size) =
      d.ops ++ ops.toArray := by
    apply Array.ext'
    simp [hmap]
  rw [compile, tokenize, ← hops]
  simp only [htokens, endError?, hunclosed]
  exact ⟨_, rfl, rfl⟩

section

variable {r : Registry} (hr : r.Distinct)

include hr

/-- One more value, and white space behind it. -/
theorem Reads.value {v : Value} (hv : v.Readable r) {d d' : Draft} (hd : d.symbols = r)
    {gap rest : Bytes} (hgap : ∀ s, Token.Gap s gap)
    (hrest : ∀ b ∈ rest.head?, Byte.isSpace b = true) (h : (d.emit [.push v]).Reads rest d') :
    d.Reads (gap ++ (v.format r .quoted ++ rest)) d' := by
  obtain ⟨kind, hspells, htoken⟩ := hv.token hr
  exact .token (hgap _) hspells (Token.ends_of_space hrest) (fun p => htoken d p hd) h

/-- Values with a space in front of each. -/
theorem reads_spaced {vs : List Value} (hvs : ∀ v ∈ vs, v.Readable r) {d : Draft}
    (hd : d.symbols = r) :
    d.Reads (vs.flatMap fun v => lit " " ++ v.format r .quoted) (d.emit (vs.map .push)) := by
  induction vs generalizing d with
  | nil =>
    rw [List.map_nil, emit_nil]
    exact d.reads_nil
  | cons v vs ih =>
    obtain ⟨hv, hvs⟩ := List.forall_mem_cons.1 hvs
    have hrest : (d.emit [.push v]).Reads _ _ := ih hvs hd
    rw [emit_emit] at hrest
    rw [List.flatMap_cons, List.append_assoc]
    exact .value hr hv hd (fun _ => .space rfl .nil) (space_head vs) hrest

/-- Values with a space between two of them. -/
theorem reads_joined {vs : List Value} (hvs : ∀ v ∈ vs, v.Readable r) {d : Draft}
    (hd : d.symbols = r) :
    d.Reads (Bytes.join (lit " ") (vs.map (Value.format r .quoted))) (d.emit (vs.map .push)) := by
  cases vs with
  | nil =>
    rw [List.map_nil, List.map_nil, emit_nil]
    exact d.reads_nil
  | cons v vs =>
    obtain ⟨hv, hvs⟩ := List.forall_mem_cons.1 hvs
    have hrest : (d.emit [.push v]).Reads _ _ := reads_spaced hr hvs hd
    rw [emit_emit] at hrest
    rw [List.map_cons, Bytes.join_cons, List.flatMap_map]
    exact .value hr hv hd (fun _ => .nil) (space_head vs) hrest

theorem compile_values {vs : List Value} (hvs : ∀ v ∈ vs, v.Readable r) {d : Draft}
    (hd : d.symbols = r) :
    ∃ d', d.compile (Bytes.join (lit " ") (vs.map (Value.format r .quoted))) =
        (d', .ok ⟨d.ops ++ (vs.map Op.push).toArray, d.ops.size⟩) ∧ d'.symbols = r := by
  have hstart : { d with current := #[], braces := [], layouts := [] : Draft }.symbols = r := hd
  obtain ⟨d', hcompile, hsymbols⟩ :=
    compile_of_reads (by simp [Op.relocate]) (reads_joined hr hvs hstart)
  exact ⟨d', hcompile, hsymbols.trans hd⟩

end

end Draft

/-! ## Running -/

/-- Values are pushed one after the other, if there is room for all. -/
theorem Machine.runs_pushes {vs : List Value} {m : Machine} {p : Nat} (hpc : m.pc = p)
    (hops : ∀ i v, vs[i]? = some v → m.program.ops[p + i]? = some (.push v))
    (hroom : m.stackLimit = 0 ∨ (m.stack.height + vs.length : Int) ≤ m.stackLimit) :
    m.Runs vs.length []
      { m with stack := m.stack.replace 0 vs.reverse, pc := (p + vs.length : Nat) } := by
  induction vs generalizing m p with
  | nil =>
    have hsame : m.stack.replace 0 [] = m.stack := Stack.eq_of_items rfl
    rw [List.reverse_nil, hsame, List.length_nil, Nat.add_zero, ← hpc]
    exact .refl m
  | cons v vs ih =>
    rw [List.length_cons] at hroom
    have hfull : m.stack.full m.stackLimit = false := by
      rw [Bool.eq_false_iff, ne_eq, Stack.full_iff]
      omega
    have hstep : m.step = .next { m with stack := m.stack.push v, pc := m.pc + 1 } := by
      rw [step_of_fetch hpc (hops 0 v rfl), Op.run, push, hfull]
      rfl
    have hrest := ih (m := { m with stack := m.stack.push v, pc := m.pc + 1 }) (p := p + 1)
      (by rw [hpc]; rfl) ?_ ?_
    · have hstack : (m.stack.push v).replace 0 vs.reverse = m.stack.replace 0 (v :: vs).reverse :=
        Stack.eq_of_items (by simp)
      simp only [hstack, Nat.add_right_comm p 1] at hrest
      exact .step (.next hstep) hrest
    · intro i u hu
      rw [Nat.add_right_comm]
      exact hops (i + 1) u hu
    · show m.stackLimit = 0 ∨ ((m.stack.push v).height + vs.length : Int) ≤ m.stackLimit
      rw [Stack.height_push]
      omega

namespace Session

theorem load_of_compile {s : Session} (hs : s.Reliable) {src : Bytes} {d : Draft}
    {program : Program}
    (hcompile : Draft.compile { symbols := s.machine.symbols, ops := s.machine.program.ops } src =
      (d, .ok program)) :
    ∃ t, s.load src = (t, none) ∧ t.Reliable ∧
      t.machine = { s.machine with symbols := d.symbols, program, pc := program.entry } := by
  rcases s.announce_cases d.layouts.reverse with
    ⟨t, heq, hserves, houtput⟩ | ⟨t, a, -, -, -, hnot, -⟩
  · have ht : t.Reliable := (hs.delivers hserves.alike houtput).reliable hs
    refine ⟨_, by simp only [load, hcompile, heq]; rfl, ht.setMachine _, ?_⟩
    rw [setSymbols_machine hserves.machine]
  · exact absurd hs.calm hnot

/-- The text of readable values, without its brackets, compiles to one push for each of them. A
session with an empty stack that evaluates it has these values on its stack, and their text is that
text. -/
theorem formatted_values_read_back {r : Registry} {vs : List Value} {text : Bytes}
    (hr : r.Distinct) (hvs : ∀ v ∈ vs, v.Readable r)
    (htext : Value.formatList r vs = lit "[" ++ text ++ lit "]") :
    compile r text = (r, .ok ⟨(vs.map Op.push).toArray, 0⟩) ∧
      ∀ s : Session, s.Reliable → s.machine.symbols = r → s.machine.values = [] →
        (s.machine.stackLimit = 0 ∨ (vs.length : Int) ≤ s.machine.stackLimit) →
        ∃ t, t.machine.values = vs ∧ t.machine.formatStack = lit "[" ++ text ++ lit "]" ∧
          ∀ i polls, vs.length ≤ polls → s.eval ⟨polls, i⟩ text = (t, none) := by
  obtain rfl : text = Bytes.join (lit " ") (vs.map (Value.format r .quoted)) := by
    rw [Value.formatList] at htext
    exact (List.append_cancel_left (List.append_cancel_right htext)).symm
  constructor
  · obtain ⟨d, hcompile, hd⟩ := Draft.compile_values hr hvs (d := { symbols := r }) rfl
    rw [compile, hcompile]
    simp [hd]
  intro s hs hsymbols hempty hlimit
  obtain ⟨d, hcompile, hd⟩ := Draft.compile_values hr hvs
    (d := { symbols := s.machine.symbols, ops := s.machine.program.ops }) hsymbols
  obtain ⟨t, hload, ht, hmachine⟩ := load_of_compile hs hcompile
  have hempty : s.machine.stack.items = [] := List.reverse_eq_nil_iff.1 hempty
  have hops : ∀ i v, vs[i]? = some v →
      t.machine.program.ops[s.machine.program.ops.size + i]? = some (.push v) := by
    intro i v hv
    rw [hmachine]
    simp [Array.getElem?_append, hv]
  have hroom : t.machine.stackLimit = 0 ∨
      (t.machine.stack.height + vs.length : Int) ≤ t.machine.stackLimit := by
    rw [hmachine]
    simpa [s.machine.stack.height_eq, hempty] using hlimit
  have hruns := Machine.runs_pushes (by rw [hmachine]) hops hroom
  obtain ⟨u, hu, -, hfinish⟩ := finish_done ht hruns (by simp [Machine.running, hmachine])
  have hvalues : u.machine.values = vs := by
    rw [hu, hmachine]
    simp [Machine.values, hempty]
  refine ⟨u, hvalues, ?_, ?_⟩
  · rw [← htext, Machine.formatStack, hvalues, hu, hmachine, ← hd]
  · intro i polls hle
    rw [eval_of_load hload, hfinish i polls hle]
    rfl

/-- A string with quotes, a comment sign and a line break in it, symbols that look like a literal
and like nothing at all, and just enough room and time. -/
theorem formatted_values_read_back_quotes :
    ∃ s t text, s = new (.of [.ofString (lit "\"a\"\" # b\n"), .ofWord (lit "\"7:#"), .ofWord []])
        [.stackLimit 6, .trace (some {})] ∧
      text = lit "false 7 \"\"\"a\"\"\"\" # b\n\" :\"7:# : true" ∧
      s.eval { polls := 6 } text = (t, none) ∧
      t.machine.values = [.bool false, .int 7, .str 1, .sym 2, .sym 3, .bool true] ∧
      t.machine.formatStack = lit "[" ++ text ++ lit "]" := by
  generalize hs : new (.of [.ofString (lit "\"a\"\" # b\n"), .ofWord (lit "\"7:#"), .ofWord []])
    [.stackLimit 6, .trace (some {})] = s
  obtain ⟨σ, hrest⟩ := new_resting (Registry.distinct_of [.ofString (lit "\"a\"\" # b\n"),
    .ofWord (lit "\"7:#"), .ofWord []]) [.stackLimit 6, .trace (some {})]
  rw [hs] at hrest
  have hnames : s.machine.symbols.name? 1 = some (.ofString (lit "\"a\"\" # b\n")) ∧
      s.machine.symbols.name? 2 = some (.ofWord (lit "\"7:#")) ∧
      s.machine.symbols.name? 3 = some (.ofWord []) := by
    rw [← hs]
    exact ⟨by cbv, by cbv, by cbv⟩
  have hreliable : s.Reliable := by
    rw [← hs]
    refine ⟨by simp [new, apply], by simp [new, apply], ?_⟩
    intro t ht call line
    obtain rfl : t = {} := by simpa [new, apply] using ht.symm
    rfl
  have hreadable : ∀ v ∈ [.bool false, .int 7, .str 1, .sym 2, .sym 3, .bool true],
      Value.Readable s.machine.symbols v := by
    simp only [List.forall_mem_cons, List.not_mem_nil]
    exact ⟨.bool _, .int (by decide), .str hnames.1, .sym hnames.2.1 (by decide +kernel),
      .sym hnames.2.2 (by simp [Token.Solid]), .bool _, by simp⟩
  have htext : Value.formatList s.machine.symbols
      [.bool false, .int 7, .str 1, .sym 2, .sym 3, .bool true] =
        lit "[" ++ lit "false 7 \"\"\"a\"\"\"\" # b\n\" :\"7:# : true" ++ lit "]" := by
    rw [← hs]
    cbv
  have hstart : (s.machine.values, s.machine.stackLimit) = ([], 6) := by
    rw [← hs]
    cbv
  obtain ⟨hempty, hlimit⟩ := Prod.mk.inj hstart
  obtain ⟨-, hread⟩ := formatted_values_read_back hrest.sound.distinct hreadable htext
  obtain ⟨t, hvalues, hformat, heval⟩ :=
    hread s hreliable rfl hempty (.inr (by rw [hlimit]; decide))
  exact ⟨s, t, _, rfl, rfl, heval _ 6 (by decide), hvalues, hformat⟩

end Session

end StackLang
