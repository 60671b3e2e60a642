import Mathlib
import StackLang.Proofs.Compilation

/-!
# The layout of blocks

What compiling a source adds to a program, address by address. The new code is a row of segments,
one for each closing brace in the order of the closing braces, and then the top-level code. A
segment ends in `ret`, no other instruction is a `ret`, loops stay within their segment, and each
segment is referred to exactly once, from the code of the block around it.

* `BlockLayout`: all this as a structure.
* `blockLayout_of_compile`: every source that compiles has such a layout, on any program.
-/

namespace StackLang.Tree

/-! ## Blocks within blocks -/

def Item.number? : Item → Option Nat
  | .atom _ => none
  | .block number _ => some number

/-- The numbers of the blocks that lie directly in a list of items. -/
def children (items : List Item) : List Nat := items.filterMap Item.number?

theorem mem_children {items : List Item} {number : Nat} :
    number ∈ children items ↔ ∃ body, .block number body ∈ items := by
  simp only [children, List.mem_filterMap]
  constructor
  · rintro ⟨item, hitem, hnumber⟩
    cases item with
    | atom a => cases hnumber
    | block n body =>
      cases hnumber
      exact ⟨body, hitem⟩
  · rintro ⟨body, hitem⟩
    exact ⟨_, hitem, rfl⟩

mutual

theorem Item.count_children (n : Nat) : ∀ item : Item,
    (item.blocks.flatMap fun b => children b.2).count n + (children [item]).count n =
      (item.blocks.map Prod.fst).count n
  | .atom a => by simp [Item.blocks, children, Item.number?, List.filterMap_cons]
  | .block number body => by
    have hbody := count_children n body
    simp only [Item.blocks, List.flatMap_append, List.flatMap_singleton, List.count_append,
      List.map_append, List.map_cons, List.map_nil]
    rw [hbody]
    simp [children, Item.number?]

/-- Every block lies directly in exactly one list: the top-level items, or those of a block. -/
theorem count_children (n : Nat) : ∀ items : List Item,
    ((blocks items).flatMap fun b => children b.2).count n + (children items).count n =
      ((blocks items).map Prod.fst).count n
  | [] => by simp [blocks, children]
  | item :: items => by
    have hitem := Item.count_children n item
    have hitems := count_children n items
    have hcons : children (item :: items) = children [item] ++ children items := by
      simp [children, List.filterMap_cons]
      cases item.number? <;> rfl
    simp only [blocks, List.flatMap_append, List.map_append, List.count_append, hcons]
    omega

end

theorem mem_numbers_of_child {items : List Item} {n : Nat} (h : n ∈ children items) :
    n ∈ (blocks items).map Prod.fst := by
  rw [← List.count_pos_iff] at h ⊢
  have := count_children n items
  omega

mutual

theorem Item.child_lt : ∀ item : Item, (item.blocks.map Prod.fst).Pairwise (· < ·) →
    ∀ b ∈ item.blocks, ∀ n ∈ children b.2, n < b.1
  | .atom a, _ => by simp [Item.blocks]
  | .block number body, hsorted => by
    simp only [Item.blocks, List.map_append, List.map_cons, List.map_nil,
      List.pairwise_append] at hsorted
    intro b hb n hn
    simp only [Item.blocks, List.mem_append, List.mem_singleton] at hb
    rcases hb with hb | rfl
    · exact child_lt body hsorted.1 b hb n hn
    · exact hsorted.2.2 n (mem_numbers_of_child hn) number (by simp)

/-- A block closes after the blocks in it. -/
theorem child_lt : ∀ items : List Item, ((blocks items).map Prod.fst).Pairwise (· < ·) →
    ∀ b ∈ blocks items, ∀ n ∈ children b.2, n < b.1
  | [], _ => by simp [blocks]
  | item :: items, hsorted => by
    simp only [blocks, List.map_append, List.pairwise_append] at hsorted
    intro b hb n hn
    simp only [blocks, List.mem_append] at hb
    rcases hb with hb | hb
    · exact Item.child_lt item hsorted.1 b hb n hn
    · exact child_lt items hsorted.2.1 b hb n hn

end

/-! ## Closing braces -/

mutual

theorem Item.count_closing : ∀ item : Item, item.lexemes.count .closing = item.blocks.length
  | .atom a => by simp [Item.lexemes, Item.blocks]
  | .block number body => by
    have := count_closing body
    simp [Item.lexemes, Item.blocks, this]

theorem count_closing : ∀ items : List Item,
    (lexemes items).count .closing = (blocks items).length
  | [] => by simp [lexemes, blocks]
  | item :: items => by
    have hitem := Item.count_closing item
    have hitems := count_closing items
    simp [lexemes, blocks, hitem, hitems]

end

theorem closing_iff {t : Token} {l : Lexeme} (h : Lexeme.ofToken? t = some l) :
    t.Closing ↔ l = .closing := by
  constructor
  · rintro ⟨hkind, htext⟩
    have hdistinct : lit "\x7d" ≠ lit "\x7b" := by decide
    simp [Lexeme.ofToken?, hkind, htext, Lexeme.ofWord, hdistinct] at h
    exact h.symm
  · rintro rfl
    obtain ⟨hkind, hword⟩ := ofWord_of_brace h (by simp)
    refine ⟨hkind, ?_⟩
    unfold Lexeme.ofWord at hword
    split at hword
    · cases hword
    · split at hword
      · assumption
      · split at hword <;> cases hword

private theorem countP_closing_of_mapM {ts : List Token} {ls : List Lexeme}
    (h : ts.mapM Lexeme.ofToken? = some ls) :
    ts.countP (fun t => t.Closing) = ls.count .closing := by
  induction ts generalizing ls with
  | nil =>
    obtain rfl : ls = [] := by simpa using h.symm
    rfl
  | cons t ts ih =>
    obtain ⟨l, hl, ls', hls', rfl⟩ : ∃ l, Lexeme.ofToken? t = some l ∧
        ∃ ls', ts.mapM Lexeme.ofToken? = some ls' ∧ l :: ls' = ls := by
      simpa [List.mapM_cons, Option.bind_eq_some_iff] using h
    rw [List.countP_cons, List.count_cons, ih hls']
    simp only [closing_iff hl, decide_eq_true_eq, beq_iff_eq]

theorem countP_closing {src : Bytes} {ls : List Lexeme} (h : lexemes? src = some ls) :
    (tokenize src).list.countP (fun t => t.Closing) = ls.count .closing := by
  unfold lexemes? at h
  split at h
  · cases h
  · exact countP_closing_of_mapM h

/-! ## Segments -/

/-- Where the `k`-th of several segments starts, if they follow on `base` instructions. -/
def startOf (base : Nat) (segments : List (List Op)) (k : Nat) : Nat :=
  base + (segments.take k).flatten.length

theorem startOf_cons_succ (base : Nat) (segment : List Op) (segments : List (List Op)) (k : Nat) :
    startOf base (segment :: segments) (k + 1) = startOf (base + segment.length) segments k := by
  simp [startOf, Nat.add_assoc]

theorem startOf_succ (base : Nat) {segments : List (List Op)} {k : Nat} {segment : List Op}
    (h : segments[k]? = some segment) :
    startOf base segments (k + 1) = startOf base segments k + segment.length := by
  simp [startOf, List.take_add_one, h, Nat.add_assoc]

theorem startOf_mono (base : Nat) (segments : List (List Op)) {j k : Nat} (h : j ≤ k) :
    startOf base segments j ≤ startOf base segments k := by
  induction h with
  | refl => exact Nat.le_refl _
  | @step k _ ih =>
    refine Nat.le_trans ih ?_
    cases hk : segments[k]? with
    | none => simp [startOf, List.take_add_one, hk]
    | some segment =>
      rw [startOf_succ base hk]
      exact Nat.le_add_right _ _

/-- An instruction of a row of segments lies in one of them. -/
theorem locate_segment {segments : List (List Op)} {i : Nat} {op : Op} (base : Nat)
    (h : segments.flatten[i]? = some op) :
    ∃ k segment j, segments[k]? = some segment ∧ segment[j]? = some op ∧
      base + i = startOf base segments k + j := by
  induction segments generalizing base i with
  | nil => simp at h
  | cons segment segments ih =>
    rw [List.flatten_cons] at h
    by_cases hlt : i < segment.length
    · rw [List.getElem?_append_left hlt] at h
      exact ⟨0, segment, i, rfl, h, by simp [startOf]⟩
    · rw [List.getElem?_append_right (by omega)] at h
      obtain ⟨k, segment', j, hk, hj, hij⟩ := ih (base + segment.length) h
      refine ⟨k + 1, segment', j, hk, hj, ?_⟩
      rw [startOf_cons_succ]
      omega

theorem getElem?_segment {segments : List (List Op)} {k j : Nat} {segment : List Op} {op : Op}
    (hk : segments[k]? = some segment) (hj : segment[j]? = some op) :
    segments.flatten[startOf 0 segments k + j]? = some op := by
  induction segments generalizing k with
  | nil => simp at hk
  | cons segment' segments ih =>
    cases k with
    | zero =>
      cases hk
      have hlt := (List.getElem?_eq_some_iff.1 hj).1
      simp [startOf, List.getElem?_append_left hlt, hj]
    | succ k =>
      have hstart : startOf 0 (segment' :: segments) (k + 1) =
          segment'.length + startOf 0 segments k := by
        simp [startOf]
      rw [hstart, List.flatten_cons, List.getElem?_append_right (by omega)]
      have hoffset : segment'.length + startOf 0 segments k + j - segment'.length =
          startOf 0 segments k + j := by
        omega
      rw [hoffset]
      exact ih hk

/-- Blocks that fill a stretch of code are a row of segments. -/
theorem Filled.segments {r : Registry} {T blocks : Table} {p : Nat} {code : List Op}
    (h : Filled r T p blocks code) :
    ∃ segments : List (List Op), code = segments.flatten ∧ segments.length = blocks.length ∧
      ∀ (k : Nat) (b : Placement), blocks[k]? = some b → b.start = startOf p segments k ∧
        ∃ c, segments[k]? = some (c ++ [.ret]) ∧ Assembled r T b.start b.body c := by
  induction h with
  | nil => exact ⟨[], rfl, rfl, by simp⟩
  | @cons p body code rest blocks hbody _ ih =>
    obtain ⟨segments, hrest, hlength, hblocks⟩ := ih
    refine ⟨(code ++ [.ret]) :: segments, by simp [hrest], by simp [hlength], ?_⟩
    intro k b hb
    cases k with
    | zero =>
      cases hb
      exact ⟨by simp [startOf], code, rfl, hbody⟩
    | succ k =>
      obtain ⟨hstart, c, hc, hassembled⟩ := hblocks k b hb
      refine ⟨?_, c, hc, hassembled⟩
      rw [hstart, startOf_cons_succ]
      simp [Nat.add_assoc]

/-! ## References -/

/-- The block that an instruction refers to, by its start. -/
def reference? : Op → Option Int
  | .push (.code (.block start)) => some start
  | _ => none

def startIn (T : Table) (number : Nat) : Option Int := T[number]?.map fun b => (b.start : Int)

theorem Encodes.references {r : Registry} {T : Table} {p : Nat} {item : Item} {code : List Op}
    (h : Encodes r T p item code) :
    code.filterMap reference? = (children [item]).filterMap (startIn T) := by
  cases h with
  | constant h => cases h <;> rfl
  | primitive q => cases q <;> rfl
  | block h => simp [children, Item.number?, reference?, startIn, h]
  | _ => rfl

/-- Code refers to the blocks that lie directly in its items, in their order. -/
theorem Assembled.references {r : Registry} {T : Table} {p : Nat} {items : List Item}
    {code : List Op} (h : Assembled r T p items code) :
    code.filterMap reference? = (children items).filterMap (startIn T) := by
  induction h with
  | nil => rfl
  | @cons p item items code rest hitem _ ih =>
    rw [List.filterMap_append, hitem.references, ih, ← List.filterMap_append]
    congr 1
    rw [children, children, children, ← List.filterMap_append, List.singleton_append]

theorem Filled.references {r : Registry} {T blocks : Table} {p : Nat} {code : List Op}
    (h : Filled r T p blocks code) :
    code.filterMap reference? =
      (blocks.flatMap fun b => children b.body).filterMap (startIn T) := by
  induction h with
  | nil => rfl
  | @cons p body code rest blocks hbody _ ih =>
    rw [List.filterMap_append, hbody.references, List.filterMap_cons, ih, List.flatMap_cons,
      List.filterMap_append]
    rfl

/-- The instruction by which code refers to a block in it. -/
theorem Assembled.reference {r : Registry} {T : Table} {p : Nat} {items : List Item}
    {code : List Op} (h : Assembled r T p items code) {number : Nat} {body : List Item}
    (hblock : .block number body ∈ items) :
    ∃ (j start : Nat), code[j]? = some (.push (.code (.block start))) ∧
      T[number]? = some ⟨start, body⟩ := by
  induction h with
  | nil => cases hblock
  | @cons p item items code rest hitem _ ih =>
    rcases List.mem_cons.1 hblock with rfl | hblock
    · cases hitem with
      | block hT => exact ⟨0, _, rfl, hT⟩
    · obtain ⟨j, start, hj, hT⟩ := ih hblock
      refine ⟨code.length + j, start, ?_, hT⟩
      rw [List.getElem?_append_right (Nat.le_add_right _ _), Nat.add_sub_cancel_left, hj]

theorem Assembled.exit {r : Registry} {T : Table} {p : Nat} {items : List Item} {code : List Op}
    (h : Assembled r T p items code) {j : Nat} {t : Int} (hj : code[j]? = some (.loopExit t)) :
    t = p + j + 3 ∧ j + 3 ≤ code.length := by
  obtain ⟨item, -, q, c, i, hc, hi, rfl, hle⟩ := h.locate hj
  obtain ⟨hlength, rfl, ht⟩ := hc.exit hi
  omega

theorem Assembled.jump {r : Registry} {T : Table} {p : Nat} {items : List Item} {code : List Op}
    (h : Assembled r T p items code) {j : Nat} {t : Int} (hj : code[j]? = some (.jump t)) :
    ∃ i, j = i + 3 ∧ t = p + i := by
  obtain ⟨item, -, q, c, i, hc, hi, rfl, -⟩ := h.locate hj
  obtain ⟨rfl, ht⟩ := hc.jump hi
  exact ⟨q + 1, rfl, by omega⟩

theorem getElem?_body {body : List Op} {j : Nat} {op : Op} (h : (body ++ [.ret])[j]? = some op)
    (hop : op ≠ .ret) : body[j]? = some op := by
  by_cases hlt : j < body.length
  · rwa [List.getElem?_append_left hlt] at h
  · rw [List.getElem?_append_right (by omega), List.getElem?_singleton] at h
    split at h
    · exact absurd (Option.some.inj h).symm hop
    · cases h

theorem index_unique {α β : Type} {l : List α} {f : α → Option β} (h : (l.filterMap f).Nodup)
    {i j : Nat} {a b : α} {x : β} (hi : l[i]? = some a) (ha : f a = some x)
    (hj : l[j]? = some b) (hb : f b = some x) : i = j := by
  rw [List.Nodup, List.pairwise_filterMap, List.pairwise_iff_getElem] at h
  obtain ⟨hilt, rfl⟩ := List.getElem?_eq_some_iff.1 hi
  obtain ⟨hjlt, rfl⟩ := List.getElem?_eq_some_iff.1 hj
  rcases Nat.lt_trichotomy i j with hlt | heq | hgt
  · exact absurd rfl (h i j hilt hjlt hlt x ha x hb)
  · exact heq
  · exact absurd rfl (h j i hjlt hilt hgt x hb x ha)

/-! ## The layout -/

/-- Two addresses of the same segment, or both in the top-level code or at its end. -/
def SameSegment (base : Nat) (segments : List (List Op)) (size a b : Nat) : Prop :=
  (∃ k < segments.length, startOf base segments k ≤ a ∧ a < startOf base segments (k + 1) ∧
    startOf base segments k ≤ b ∧ b < startOf base segments (k + 1)) ∨
  startOf base segments segments.length ≤ a ∧ a ≤ size ∧
    startOf base segments segments.length ≤ b ∧ b ≤ size

/-- A program that consists of the code `base` and of the code of a tree: `segments` is the code of
its blocks, and `root` that of its top-level items. -/
structure BlockLayout (base : Array Op) (r : Registry) (tree : List Item)
    (segments : List (List Op)) (root : List Op) (program : Program) : Prop where
  ops : program.ops.toList = base.toList ++ (segments.flatten ++ root)
  entry : program.entry = startOf base.size segments segments.length
  /-- The `k`-th segment is the code of the block with the `k`-th closing brace. -/
  count : segments.length = (blocks tree).length
  code : ∃ T : Table, Assembled r T (startOf base.size segments segments.length) tree root ∧
    ∀ k body, (blocks tree)[k]? = some (k, body) →
      T[k]? = some ⟨startOf base.size segments k, body⟩ ∧
      ∃ c, segments[k]? = some (c ++ [.ret]) ∧
        Assembled r T (startOf base.size segments k) body c
  returns : ∀ segment ∈ segments, ∃ body, segment = body ++ [.ret] ∧ .ret ∉ body
  root_returns : .ret ∉ root
  exits : ∀ (a : Nat) (t : Int), base.size ≤ a → program.ops[a]? = some (.loopExit t) →
    t = a + 3 ∧ SameSegment base.size segments program.ops.size a (a + 3)
  jumps : ∀ (a : Nat) (t : Int), base.size ≤ a → program.ops[a]? = some (.jump t) →
    ∃ b : Nat, a = b + 3 ∧ t = b ∧ SameSegment base.size segments program.ops.size a b
  pushes : ∀ (a : Nat) (s : Int), base.size ≤ a →
    program.ops[a]? = some (.push (.code (.block s))) →
    ∃ k < segments.length, s = startOf base.size segments k ∧ s < a ∧ s < program.entry
  /-- Exactly one instruction refers to a block, and it belongs to the block around it. -/
  references : ∀ (k : Nat) (body : List Item), (blocks tree)[k]? = some (k, body) →
    ∃ a, base.size ≤ a ∧
      (∀ b, base.size ≤ b → (program.ops[b]? =
        some (.push (.code (.block (startOf base.size segments k)))) ↔ b = a)) ∧
      ((.block k body ∈ tree ∧ startOf base.size segments segments.length ≤ a) ∨
        ∃ j outer, (blocks tree)[j]? = some (j, outer) ∧ .block k body ∈ outer ∧
          startOf base.size segments j ≤ a ∧ a < startOf base.size segments (j + 1))

/-- The facts from which a layout follows: where each segment is, and what it holds. -/
structure Segmented (base : Array Op) (r : Registry) (tree : List Item) (T : Table)
    (segments : List (List Op)) (rootCode : List Op) (program : Program) : Prop where
  ops : program.ops.toList = base.toList ++ (segments.flatten ++ rootCode)
  entry : program.entry = startOf base.size segments segments.length
  count : segments.length = (blocks tree).length
  number : ∀ (k : Nat) (b : Nat × List Item), (blocks tree)[k]? = some b → b.1 = k
  sorted : ((blocks tree).map Prod.fst).Pairwise (· < ·)
  placed : ∀ (k : Nat) (b : Nat × List Item), (blocks tree)[k]? = some b →
    T[k]? = some ⟨startOf base.size segments k, b.2⟩
  length : T.length = segments.length
  segment : ∀ (k : Nat) (b : Placement), T[k]? = some b →
    ∃ c, segments[k]? = some (c ++ [.ret]) ∧
      Assembled r T (startOf base.size segments k) b.body c
  top : Assembled r T (startOf base.size segments segments.length) tree rootCode
  references : (segments.flatten ++ rootCode).filterMap reference? =
    (((blocks tree).flatMap fun b => children b.2) ++ children tree).filterMap (startIn T)

theorem Compiled.segmented {base : Array Op} {tree : List Item} {T : Table} {r : Registry}
    {blockCode rootCode : List Op} {program : Program}
    (h : Compiled base [] tree T r blockCode rootCode program)
    (hnumbers : (blocks tree).map Prod.fst = List.range' 0 (blocks tree).length) :
    ∃ segments, Segmented base r tree T segments rootCode program := by
  obtain ⟨segments, rfl, hlength, hsegments⟩ := h.filled.segments
  have hcount : T.length = (blocks tree).length := by simpa using congrArg List.length h.bodies
  have hstart : startOf base.size segments segments.length =
      base.size + segments.flatten.length := by
    simp [startOf]
  have hplaced : ∀ (k : Nat) (b : Nat × List Item), (blocks tree)[k]? = some b →
      T[k]? = some ⟨startOf base.size segments k, b.2⟩ := by
    intro k b hb
    have hbody : (T.map Placement.body)[k]? = some b.2 := by
      rw [h.bodies, List.getElem?_map, hb]
      rfl
    rw [List.getElem?_map, Option.map_eq_some_iff] at hbody
    obtain ⟨b', hb', hbody⟩ := hbody
    rw [hb', ← (hsegments k b' hb').1, ← hbody]
  refine ⟨segments, h.ops, by rw [h.entry, hstart], hlength.trans hcount, ?_, ?_, hplaced,
    hlength.symm, ?_, ?_, ?_⟩
  · intro k b hb
    have hk : ((blocks tree).map Prod.fst)[k]? = some b.1 := by simp [hb]
    rw [hnumbers, List.getElem?_range' (List.getElem?_eq_some_iff.1 hb).1] at hk
    simpa using hk.symm
  · rw [hnumbers]
    exact List.pairwise_lt_range'
  · intro k b hb
    obtain ⟨hstart, c, hc, hassembled⟩ := hsegments k b hb
    exact ⟨c, hc, by simpa [hstart] using hassembled⟩
  · simpa [hstart] using h.assembled
  · have hflat : (T.flatMap fun b => children b.body) =
        (blocks tree).flatMap fun b => children b.2 := by
      have := congrArg (List.flatMap children) h.bodies
      simpa [List.flatMap_map] using this
    rw [List.filterMap_append, h.filled.references, h.assembled.references, List.nil_append, hflat,
      List.filterMap_append]

namespace Segmented

variable {base : Array Op} {r : Registry} {tree : List Item} {T : Table}
  {segments : List (List Op)} {rootCode : List Op} {program : Program}

theorem getElem?_ops (h : Segmented base r tree T segments rootCode program) (i : Nat) :
    program.ops[base.size + i]? = (segments.flatten ++ rootCode)[i]? := by
  rw [← Array.getElem?_toList, h.ops, List.getElem?_append_right (by simp)]
  simp

/-- An instruction of the new code lies in a segment or in the top-level code. -/
theorem locate (h : Segmented base r tree T segments rootCode program) {a : Nat} {op : Op}
    (ha : base.size ≤ a) (hop : program.ops[a]? = some op) :
    (∃ k b c j, T[k]? = some b ∧ segments[k]? = some (c ++ [.ret]) ∧
      Assembled r T (startOf base.size segments k) b.body c ∧ (c ++ [.ret])[j]? = some op ∧
      a = startOf base.size segments k + j) ∨
    ∃ j, rootCode[j]? = some op ∧ a = startOf base.size segments segments.length + j := by
  obtain ⟨i, rfl⟩ := Nat.exists_eq_add_of_le ha
  rw [h.getElem?_ops] at hop
  by_cases hlt : i < segments.flatten.length
  · rw [List.getElem?_append_left hlt] at hop
    obtain ⟨k, segment, j, hk, hj, hij⟩ := locate_segment base.size hop
    have hklt : k < T.length := by
      rw [h.length]
      exact (List.getElem?_eq_some_iff.1 hk).1
    obtain ⟨c, hc, hassembled⟩ := h.segment k T[k] (List.getElem?_eq_getElem hklt)
    rw [hk] at hc
    cases hc
    exact Or.inl ⟨k, T[k], c, j, List.getElem?_eq_getElem hklt, hk, hassembled, hj, hij⟩
  · rw [List.getElem?_append_right (by omega)] at hop
    refine Or.inr ⟨i - segments.flatten.length, hop, ?_⟩
    simp only [startOf, List.take_length]
    omega

theorem size (h : Segmented base r tree T segments rootCode program) :
    program.ops.size = startOf base.size segments segments.length + rootCode.length := by
  have := congrArg List.length h.ops
  simp only [Array.length_toList, List.length_append] at this
  simp only [startOf, List.take_length]
  omega

theorem returns (h : Segmented base r tree T segments rootCode program) {segment : List Op}
    (hsegment : segment ∈ segments) : ∃ body, segment = body ++ [.ret] ∧ .ret ∉ body := by
  obtain ⟨k, hk⟩ := List.mem_iff_getElem?.1 hsegment
  have hlt : k < T.length := by
    rw [h.length]
    exact (List.getElem?_eq_some_iff.1 hk).1
  obtain ⟨c, hc, hassembled⟩ := h.segment k T[k] (List.getElem?_eq_getElem hlt)
  rw [hk] at hc
  cases hc
  exact ⟨c, rfl, fun hret => (hassembled.op_ne hret).1 rfl⟩

theorem exits (h : Segmented base r tree T segments rootCode program) {a : Nat} {t : Int}
    (ha : base.size ≤ a) (hop : program.ops[a]? = some (.loopExit t)) :
    t = a + 3 ∧ SameSegment base.size segments program.ops.size a (a + 3) := by
  rcases h.locate ha hop with ⟨k, b, c, j, hb, hk, hassembled, hj, rfl⟩ | ⟨j, hj, rfl⟩
  · obtain ⟨ht, hle⟩ := hassembled.exit (getElem?_body hj (by simp))
    have hnext := startOf_succ base.size hk
    rw [List.length_append, List.length_singleton] at hnext
    refine ⟨by omega, Or.inl ⟨k, (List.getElem?_eq_some_iff.1 hk).1, ?_⟩⟩
    omega
  · obtain ⟨ht, hle⟩ := h.top.exit hj
    have hsize := h.size
    refine ⟨by omega, Or.inr ?_⟩
    omega

theorem jumps (h : Segmented base r tree T segments rootCode program) {a : Nat} {t : Int}
    (ha : base.size ≤ a) (hop : program.ops[a]? = some (.jump t)) :
    ∃ b : Nat, a = b + 3 ∧ t = b ∧ SameSegment base.size segments program.ops.size a b := by
  rcases h.locate ha hop with ⟨k, b, c, j, hb, hk, hassembled, hj, rfl⟩ | ⟨j, hj, rfl⟩
  · have hbody := getElem?_body hj (by simp)
    have hlt := (List.getElem?_eq_some_iff.1 hbody).1
    obtain ⟨i, rfl, ht⟩ := hassembled.jump hbody
    have hnext := startOf_succ base.size hk
    rw [List.length_append, List.length_singleton] at hnext
    refine ⟨startOf base.size segments k + i, by omega, by omega, Or.inl ⟨k, ?_, ?_⟩⟩
    · exact (List.getElem?_eq_some_iff.1 hk).1
    · omega
  · have hlt := (List.getElem?_eq_some_iff.1 hj).1
    obtain ⟨i, rfl, ht⟩ := h.top.jump hj
    have hsize := h.size
    refine ⟨startOf base.size segments segments.length + i, by omega, by omega, Or.inr ?_⟩
    omega

/-- A segment is not empty, so it starts before any later one and before the top-level code. -/
theorem startOf_lt (h : Segmented base r tree T segments rootCode program) {j k : Nat}
    (hj : j < segments.length) (hjk : j < k) :
    startOf base.size segments j < startOf base.size segments k := by
  obtain ⟨body, hbody, -⟩ := h.returns (List.getElem_mem hj)
  have hsucc := startOf_succ base.size (List.getElem?_eq_getElem hj)
  have hmono : startOf base.size segments (j + 1) ≤ startOf base.size segments k :=
    startOf_mono base.size segments hjk
  have hlength := congrArg List.length hbody
  rw [List.length_append, List.length_singleton] at hlength
  omega

/-- A block that lies directly in a list of items has a segment. -/
theorem start_eq (h : Segmented base r tree T segments rootCode program) {k start : Nat}
    {body : List Item} (hT : T[k]? = some ⟨start, body⟩) :
    k < segments.length ∧ start = startOf base.size segments k ∧
      (blocks tree)[k]? = some (k, body) := by
  have hlt : k < (blocks tree).length := by
    rw [← h.count, ← h.length]
    exact (List.getElem?_eq_some_iff.1 hT).1
  obtain ⟨⟨number, items⟩, hblock⟩ : ∃ b, (blocks tree)[k]? = some b :=
    ⟨_, List.getElem?_eq_getElem hlt⟩
  have hplaced := h.placed k _ hblock
  obtain rfl : number = k := h.number k _ hblock
  rw [hT] at hplaced
  cases hplaced
  exact ⟨by rwa [h.count], rfl, hblock⟩

theorem pushes (h : Segmented base r tree T segments rootCode program) {a : Nat} {s : Int}
    (ha : base.size ≤ a) (hop : program.ops[a]? = some (.push (.code (.block s)))) :
    ∃ k < segments.length, s = startOf base.size segments k ∧ s < a ∧ s < program.entry := by
  rw [h.entry]
  rcases h.locate ha hop with ⟨j, b, c, i, hb, hj, hassembled, hi, rfl⟩ | ⟨i, hi, rfl⟩
  · obtain ⟨k, start, body, hblock, hT, heq⟩ :=
      hassembled.push_code (List.mem_of_getElem? (getElem?_body hi (by simp)))
    cases heq
    obtain ⟨hk, rfl, -⟩ := h.start_eq hT
    obtain ⟨hjlt, -, hjblock⟩ := h.start_eq hb
    -- The inner block closes first, so its segment comes first.
    have hlt : k < j := child_lt tree h.sorted _ (List.mem_of_getElem? hjblock) k
      (mem_children.2 ⟨body, hblock⟩)
    have hstart := h.startOf_lt hk hlt
    have hentry := h.startOf_lt hk hk
    exact ⟨k, hk, rfl, by omega, by omega⟩
  · obtain ⟨k, start, body, -, hT, heq⟩ := h.top.push_code (List.mem_of_getElem? hi)
    cases heq
    obtain ⟨hk, rfl, -⟩ := h.start_eq hT
    have hentry := h.startOf_lt hk hk
    exact ⟨k, hk, rfl, by omega, by omega⟩

theorem nodup_references (h : Segmented base r tree T segments rootCode program) :
    ((segments.flatten ++ rootCode).filterMap reference?).Nodup := by
  rw [h.references]
  refine List.Nodup.filterMap ?_ ?_
  · intro j k s hj hk
    simp only [startIn, Option.mem_def, Option.map_eq_some_iff] at hj hk
    obtain ⟨⟨start, body⟩, hjT, rfl⟩ := hj
    obtain ⟨⟨start', body'⟩, hkT, heq⟩ := hk
    obtain ⟨hjlt, rfl, -⟩ := h.start_eq hjT
    obtain ⟨hklt, rfl, -⟩ := h.start_eq hkT
    have hstart : startOf base.size segments k = startOf base.size segments j :=
      Int.ofNat.inj heq
    rcases Nat.lt_trichotomy j k with hlt | heq | hgt
    · exact absurd hstart (Nat.ne_of_gt (h.startOf_lt hjlt hlt))
    · exact heq
    · exact absurd hstart (Nat.ne_of_lt (h.startOf_lt hklt hgt))
  · rw [List.nodup_iff_count_le_one]
    intro n
    rw [List.count_append, count_children]
    exact List.nodup_iff_count_le_one.1 (h.sorted.imp Nat.ne_of_lt) n

/-- No other instruction refers to the block that `a` refers to. -/
theorem reference_unique (h : Segmented base r tree T segments rootCode program) {a b : Nat}
    {s : Int} (ha : base.size ≤ a) (hopa : program.ops[a]? = some (.push (.code (.block s))))
    (hb : base.size ≤ b) (hopb : program.ops[b]? = some (.push (.code (.block s)))) : b = a := by
  obtain ⟨i, rfl⟩ := Nat.exists_eq_add_of_le ha
  obtain ⟨j, rfl⟩ := Nat.exists_eq_add_of_le hb
  rw [h.getElem?_ops] at hopa hopb
  rw [index_unique h.nodup_references hopa rfl hopb rfl]

/-- A block is referred to from the code of the items it lies in. -/
theorem reference (h : Segmented base r tree T segments rootCode program) {k : Nat}
    {body : List Item} (hk : (blocks tree)[k]? = some (k, body)) :
    ∃ a, base.size ≤ a ∧
      program.ops[a]? = some (.push (.code (.block (startOf base.size segments k)))) ∧
      ((.block k body ∈ tree ∧ startOf base.size segments segments.length ≤ a) ∨
        ∃ j outer, (blocks tree)[j]? = some (j, outer) ∧ .block k body ∈ outer ∧
          startOf base.size segments j ≤ a ∧ a < startOf base.size segments (j + 1)) := by
  have hplaced := h.placed k _ hk
  have hmem : 0 < ((blocks tree).map Prod.fst).count k :=
    List.count_pos_iff.2 (List.mem_map_of_mem (List.mem_of_getElem? hk))
  rw [← count_children] at hmem
  by_cases htop : k ∈ children tree
  · obtain ⟨body', hbody'⟩ := mem_children.1 htop
    obtain ⟨i, start, hi, hT⟩ := h.top.reference hbody'
    rw [hplaced] at hT
    cases hT
    refine ⟨startOf base.size segments segments.length + i, ?_, ?_, Or.inl ⟨hbody', ?_⟩⟩
    · simp only [startOf]
      omega
    · rw [startOf, Nat.add_assoc, h.getElem?_ops, List.take_length,
        List.getElem?_append_right (by omega), Nat.add_sub_cancel_left, hi, startOf]
    · omega
  · -- Then it lies in another block, and the segment of that block holds the reference.
    have hinner : k ∈ (blocks tree).flatMap fun b => children b.2 := by
      rw [List.count_eq_zero.2 htop] at hmem
      exact List.count_pos_iff.1 hmem
    obtain ⟨⟨j, outer⟩, hj, hchild⟩ := List.mem_flatMap.1 hinner
    obtain ⟨j', hj'⟩ := List.mem_iff_getElem?.1 hj
    obtain rfl : j = j' := h.number j' _ hj'
    obtain ⟨body', hbody'⟩ := mem_children.1 hchild
    obtain ⟨c, hc, hassembled⟩ := h.segment j _ (h.placed j _ hj')
    obtain ⟨i, start, hi, hT⟩ := hassembled.reference hbody'
    rw [hplaced] at hT
    cases hT
    have hilt := (List.getElem?_eq_some_iff.1 hi).1
    have hret : (c ++ [Op.ret])[i]? =
        some (.push (.code (.block (startOf base.size segments k)))) := by
      rw [List.getElem?_append_left hilt, hi]
    have hnext := startOf_succ base.size hc
    rw [List.length_append, List.length_singleton] at hnext
    refine ⟨startOf base.size segments j + i, ?_, ?_, Or.inr ⟨j, outer, hj', hbody', ?_, ?_⟩⟩
    · simp only [startOf]
      omega
    · have hsegment := getElem?_segment hc hret
      rw [startOf, Nat.zero_add] at hsegment
      have hflat := (List.getElem?_eq_some_iff.1 hsegment).1
      rw [startOf, Nat.add_assoc, h.getElem?_ops, List.getElem?_append_left hflat, hsegment]
    · omega
    · omega

theorem blockLayout (h : Segmented base r tree T segments rootCode program) :
    BlockLayout base r tree segments rootCode program where
  ops := h.ops
  entry := h.entry
  count := h.count
  code := by
    refine ⟨T, h.top, ?_⟩
    intro k body hk
    have hT := h.placed k _ hk
    exact ⟨hT, h.segment k _ hT⟩
  returns segment := h.returns
  root_returns hret := (h.top.op_ne hret).1 rfl
  exits a t := h.exits
  jumps a t := h.jumps
  pushes a s := h.pushes
  references := by
    intro k body hk
    obtain ⟨a, ha, hop, henclosing⟩ := h.reference hk
    refine ⟨a, ha, ?_, henclosing⟩
    intro b hb
    constructor
    · exact h.reference_unique ha hop hb
    · rintro rfl
      exact hop

end Segmented

/-- Compiling a source onto any program lays its blocks out one after the other, in the order of the
closing braces. The `tree` is that of the source: it reads back as its tokens. -/
theorem blockLayout_of_compile {d d' : Draft} {src : Bytes} {program : Program}
    (h : d.compile src = (d', .ok program)) :
    ∃ tree segments root, lexemes? src = some (lexemes tree) ∧
      (blocks tree).map Prod.fst = List.range (blocks tree).length ∧
      segments.length = (tokenize src).list.countP (fun t => t.Closing) ∧
      BlockLayout d.ops d'.symbols tree segments root program := by
  obtain ⟨tree, T, blockCode, rootCode, htree, hcompiled⟩ := compiled_of_compile h []
  have hnumbers := numbers_of_ofSource? htree
  have hlexemes := lexemes_of_ofSource? htree
  obtain ⟨segments, hsegmented⟩ := hcompiled.segmented hnumbers
  refine ⟨tree, segments, rootCode, hlexemes, ?_, ?_, hsegmented.blockLayout⟩
  · rw [hnumbers, List.range_eq_range', List.length_nil]
  · rw [hsegmented.count, ← count_closing, ← countP_closing hlexemes]

/-- A block in a block, an empty block and a loop at top level, behind two instructions. -/
theorem blockLayout_nested :
    ∃ (d' : Draft) (program : Program), program.ops.toList = [.dup, .ret,
        .call 1, .ret,
        .push (.code (.block 2)), .dup, .ret,
        .ret,
        .push (.code (.block 4)), .push (.code (.block 7)),
        .loopEnter, .loopCond, .loopExit 15, .loopBody, .jump 11] ∧
      ({ ops := #[.dup, .ret] } : Draft).compile
        (lit "\x7b \x7b x \x7d dup \x7d \x7b \x7d while") = (d', .ok program) ∧
      ∃ tree segments root,
        lexemes? (lit "\x7b \x7b x \x7d dup \x7d \x7b \x7d while") = some (lexemes tree) ∧
        (blocks tree).map Prod.fst = List.range (blocks tree).length ∧
        segments.length = (tokenize (lit "\x7b \x7b x \x7d dup \x7d \x7b \x7d while")).list.countP
          (fun t => t.Closing) ∧
        BlockLayout #[.dup, .ret] d'.symbols tree segments root program := by
  obtain ⟨d', program, h, hops⟩ : ∃ (d' : Draft) (program : Program),
      ({ ops := #[.dup, .ret] } : Draft).compile
        (lit "\x7b \x7b x \x7d dup \x7d \x7b \x7d while") = (d', .ok program) ∧
      program.ops.toList = [.dup, .ret, .call 1, .ret, .push (.code (.block 2)), .dup, .ret, .ret,
        .push (.code (.block 4)), .push (.code (.block 7)), .loopEnter, .loopCond, .loopExit 15,
        .loopBody, .jump 11] := ⟨_, _, by cbv, by cbv⟩
  exact ⟨d', program, hops, h, blockLayout_of_compile h⟩

end StackLang.Tree
