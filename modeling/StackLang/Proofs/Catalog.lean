import Mathlib
import StackLang.Proofs.Registry

/-!
# Registries over time

A registry answers one request after the other. Its handles are 1, 2, 3, … in the order in which
names are first interned; a handle stands for one name, and does so for good. What it answers at any
time follows from the record of what was asked and answered before.

A catalog is a registry with an index: beside the list of names it has a table from names to
handles, which is set up when it is first needed. Its handles are words of 64 bits, and the place of
a handle in the list is found by signed arithmetic that wraps around. It gives the same answers.

* `Registry.Kept`: what a record says about the registry (`Kept.serve`, `Kept.play`).
* `Catalog.Indexes`: a catalog stands for a registry (`Indexes.serve`, `Indexes.play`).
* `Registry.answers_follow_record`: the answers of registries and catalogs, at any time.
-/

namespace StackLang

namespace Registry

/-! ## Requests -/

/-- What a registry can be asked for. Handles are words of 64 bits, whether they were given out or
not. -/
inductive Request where
  /-- The handle of a name, which is registered if it is new. -/
  | intern (scope text : Bytes)
  /-- The handle of a name, if it has one. -/
  | find (scope text : Bytes)
  | name (h : UInt64)
  | text (h : UInt64)
  | scope (h : UInt64)
  | size
deriving DecidableEq, Repr

inductive Answer where
  | handle (h : Handle)
  | name (scope text : Bytes) (known : Bool)
  | bytes (s : Bytes)
  | size (n : Nat)
deriving DecidableEq, Repr

def serve (r : Registry) : Request → Registry × Answer
  | .intern scope text =>
    let (r, h) := r.intern (.of scope text)
    (r, .handle h)
  | .find scope text => (r, .handle (r.find (.of scope text)))
  | .name h => (r, .name (r.scope h.toNat) (r.text h.toNat) (r.name? h.toNat).isSome)
  | .text h => (r, .bytes (r.text h.toNat))
  | .scope h => (r, .bytes (r.scope h.toNat))
  | .size => (r, .size r.size)

/-- What was asked and answered, in order. -/
abbrev Record := List (Request × Answer)

/-- Requests are served one after the other. -/
def play {α : Type} (serve : α → Request → α × Answer) (a : α) : List Request → α × Record
  | [] => (a, [])
  | q :: qs =>
    let (a, answer) := serve a q
    let (a, record) := play serve a qs
    (a, (q, answer) :: record)

theorem play_cons {α : Type} (serve : α → Request → α × Answer) (a : α) (q : Request)
    (qs : List Request) :
    play serve a (q :: qs) =
      ((play serve (serve a q).1 qs).1, (q, (serve a q).2) :: (play serve (serve a q).1 qs).2) :=
  rfl

/-- The name was interned, and this handle was given out for it. -/
def Gave (record : Record) (scope text : Bytes) (h : Handle) : Prop :=
  (.intern scope text, .handle h) ∈ record

/-- The handles that were given out, in order. -/
def given (record : Record) : List Handle :=
  record.filterMap fun
    | (.intern _ _, .handle h) => some h
    | _ => none

theorem given_append (record record' : Record) :
    given (record ++ record') = given record ++ given record' := List.filterMap_append

theorem mem_given {record : Record} {h : Handle} :
    h ∈ given record ↔ ∃ scope text, Gave record scope text h := by
  rw [given, List.mem_filterMap]
  constructor
  · rintro ⟨⟨q, a⟩, hmem, heq⟩
    cases q with
    | intern scope text =>
      cases a with
      | handle h' =>
        obtain rfl : h' = h := Option.some.inj heq
        exact ⟨scope, text, hmem⟩
      | name | bytes | size => cases heq
    | find | name | text | scope | size => cases heq
  · rintro ⟨scope, text, hmem⟩
    exact ⟨_, hmem, rfl⟩

/-! ## Handles -/

theorem name?_isSome_iff {r : Registry} {h : Nat} :
    (r.name? h).isSome = true ↔ 1 ≤ h ∧ h ≤ r.size := by
  cases h with
  | zero => simp [name?]
  | succ i =>
    rw [name?, isSome_getElem?, size]
    omega

theorem le_size {r : Registry} {h : Handle} {n : Name} (hname : r.name? h = some n) :
    1 ≤ h ∧ h ≤ r.size :=
  name?_isSome_iff.1 (by rw [hname]; rfl)

theorem find_cases (r : Registry) (n : Name) :
    (r.find n = 0 ∧ ∀ h, r.name? h ≠ some n) ∨ r.name? (r.find n) = some n := by
  by_cases hzero : r.find n = 0
  · refine Or.inl ⟨hzero, ?_⟩
    intro h hname
    obtain ⟨i, rfl, hi⟩ := name?_eq_some.1 hname
    exact findUpTo_eq_zero.1 hzero i (Array.getElem?_eq_some_iff.1 hi).1 hi
  · exact Or.inr (name?_findUpTo hzero)

theorem unpack_name {r : Registry} {h : Handle} {scope text : Bytes}
    (hname : r.name? h = some (.of scope text)) : r.scope h = scope ∧ r.text h = text := by
  rw [Registry.scope, Registry.text, packed_of_name? hname, hname]
  exact ⟨Bytes.unpack_pack scope, Bytes.unpack_pack text⟩

theorem unpack_none {r : Registry} {h : Handle} (hname : r.name? h = none) :
    r.scope h = [] ∧ r.text h = [] := by
  rw [Registry.scope, Registry.text, packed, hname]
  exact ⟨rfl, rfl⟩

theorem size_le_serve (r : Registry) (q : Request) : r.size ≤ (r.serve q).1.size := by
  cases q with
  | intern scope text =>
    simp only [serve]
    rcases r.intern_cases (.of scope text) with ⟨heq, -⟩ | ⟨h, heq, -⟩
    · rw [heq, size, size, Array.size_push]
      exact Nat.le_succ _
    · rw [heq]
  | find | name | text | scope | size => exact Nat.le_refl _

theorem size_le_play (r : Registry) (qs : List Request) : r.size ≤ (play serve r qs).1.size := by
  induction qs generalizing r with
  | nil => exact Nat.le_refl _
  | cons q qs ih => exact Nat.le_trans (r.size_le_serve q) (ih _)

/-! ## What a record says -/

/-- The handles that were given out are those of the registry, in their order, and stand for the
names that they were given out for. -/
structure Kept (r : Registry) (record : Record) : Prop where
  distinct : r.Distinct
  order : (given record).eraseDups = List.range' 1 r.size
  gave_iff : ∀ scope text h, Gave record scope text h ↔ r.name? h = some (.of scope text)

theorem kept_empty : Kept {} [] := by
  refine ⟨distinct_empty, rfl, fun scope text h => ?_⟩
  cases h <;> simp [Gave, name?]

namespace Kept

variable {r : Registry} {record : Record}

theorem mem_given_iff (hr : Kept r record) {h : Handle} :
    h ∈ given record ↔ 1 ≤ h ∧ h ≤ r.size := by
  rw [mem_given, ← name?_isSome_iff]
  constructor
  · rintro ⟨scope, text, hgave⟩
    rw [(hr.gave_iff ..).1 hgave]
    rfl
  · intro hsome
    obtain ⟨n, hn⟩ := Option.isSome_iff_exists.1 hsome
    refine ⟨.unpack n.scope, .unpack n.text, (hr.gave_iff ..).2 ?_⟩
    rw [hn, Name.of, Bytes.pack_unpack, Bytes.pack_unpack]

/-- A request that interns nothing leaves no mark. -/
theorem other (hr : Kept r record) {q : Request} (hq : ∀ scope text, q ≠ .intern scope text)
    (a : Answer) : Kept r (record ++ [(q, a)]) := by
  have hgiven : given (record ++ [(q, a)]) = given record := by
    rw [given_append, List.append_right_eq_self]
    cases q with
    | intern scope text => exact absurd rfl (hq scope text)
    | find | name | text | scope | size => rfl
  refine ⟨hr.distinct, hgiven ▸ hr.order, fun scope text h => ?_⟩
  rw [← hr.gave_iff]
  simp [Gave, (hq scope text).symm]

/-- A name that is new gets the next handle. -/
theorem intern_new (hr : Kept r record) {scope text : Bytes}
    (hnew : ∀ h, r.name? h ≠ some (.of scope text)) :
    Kept ⟨r.names.push (.of scope text)⟩
      (record ++ [(.intern scope text, .handle (r.size + 1))]) := by
  have hdistinct := hr.distinct.intern (.of scope text)
  rcases r.intern_cases (.of scope text) with ⟨heq, -⟩ | ⟨h, -, hname⟩
  swap
  · exact absurd hname (hnew h)
  rw [heq] at hdistinct
  have hlast : r.size + 1 ∉ given record := by
    rw [hr.mem_given_iff]
    exact fun hle => Nat.not_succ_le_self r.size hle.2
  refine ⟨hdistinct, ?_, fun scope' text' h' => ?_⟩
  · have hgiven : given [(.intern scope text, .handle (r.size + 1))] = [r.size + 1] := rfl
    have hfresh : [r.size + 1].removeAll (given record) = [r.size + 1] := by
      simp [List.removeAll, hlast]
    have hsize : (⟨r.names.push (.of scope text)⟩ : Registry).size = r.size + 1 :=
      Array.size_push _
    rw [given_append, hgiven, List.eraseDups_append, hfresh, hr.order, hsize,
      List.range'_1_concat, Nat.add_comm 1]
    rfl
  · rw [name?_push, ← hr.gave_iff, Name.of_inj]
    simp only [Gave, List.mem_append, List.mem_singleton, Prod.mk.injEq, Request.intern.injEq,
      Answer.handle.injEq]
    tauto

/-- A name that is known keeps its handle. -/
theorem intern_old (hr : Kept r record) {scope text : Bytes} {h : Handle}
    (hname : r.name? h = some (.of scope text)) :
    Kept r (record ++ [(.intern scope text, .handle h)]) := by
  have hgave := (hr.gave_iff scope text h).2 hname
  refine ⟨hr.distinct, ?_, fun scope' text' h' => ?_⟩
  · have hgiven : given [(.intern scope text, .handle h)] = [h] := rfl
    have hseen : [h].removeAll (given record) = [] := by
      simp [List.removeAll, mem_given.2 ⟨scope, text, hgave⟩]
    rw [given_append, hgiven, List.eraseDups_append, hseen, hr.order]
    exact List.append_nil _
  · rw [← hr.gave_iff]
    simp only [Gave, List.mem_append, List.mem_singleton, Prod.mk.injEq, Request.intern.injEq,
      Answer.handle.injEq]
    constructor
    · rintro (hmem | ⟨⟨rfl, rfl⟩, rfl⟩)
      · exact hmem
      · exact hgave
    · exact Or.inl

theorem serve (hr : Kept r record) (q : Request) :
    Kept (r.serve q).1 (record ++ [(q, (r.serve q).2)]) := by
  cases q with
  | intern scope text =>
    rcases r.intern_cases (.of scope text) with ⟨heq, hnew⟩ | ⟨h, heq, hname⟩
    · simp only [Registry.serve, heq]
      exact hr.intern_new hnew
    · simp only [Registry.serve, heq]
      exact hr.intern_old hname
  | find | name | text | scope | size => exact hr.other (by simp) _

theorem play (hr : Kept r record) (qs : List Request) :
    Kept (play Registry.serve r qs).1 (record ++ (play Registry.serve r qs).2) := by
  induction qs generalizing r record with
  | nil =>
    rw [Registry.play, List.append_nil]
    exact hr
  | cons q qs ih =>
    rw [play_cons]
    simpa using ih (hr.serve q)

end Kept

end Registry

/-! ## Catalogs -/

/-- A registry with an index, which there may not be as long as there are no names. -/
structure Catalog where
  names : Array Name := #[]
  index : Option (List (Name × UInt64)) := none
deriving DecidableEq, Repr

namespace Catalog

/-- What the index has for a name. -/
def lookup (c : Catalog) (n : Name) : Option UInt64 := c.index.bind fun entries => entries.lookup n

def find (c : Catalog) (n : Name) : UInt64 := (c.lookup n).getD 0

def intern (c : Catalog) (n : Name) : Catalog × UInt64 :=
  match c.lookup n with
  | some h => (c, h)
  | none =>
    let h := UInt64.ofNat (c.names.size + 1)
    (⟨c.names.push n, some ((n, h) :: c.index.getD [])⟩, h)

/-- The place of a handle in the list of names: the word is read as a signed number, and one is
subtracted from it, which makes the lowest number the highest one. -/
def place (h : UInt64) : Int64 := h.toInt64 - 1

def name? (c : Catalog) (h : UInt64) : Option Name :=
  let i := (place h).toInt
  if 0 ≤ i ∧ i < c.names.size then c.names[i.toNat]? else none

def text (c : Catalog) (h : UInt64) : Bytes :=
  ((c.name? h).map fun n => .unpack n.text).getD []

def scope (c : Catalog) (h : UInt64) : Bytes :=
  ((c.name? h).map fun n => .unpack n.scope).getD []

def serve (c : Catalog) : Registry.Request → Catalog × Registry.Answer
  | .intern scope text =>
    let (c, h) := c.intern (.of scope text)
    (c, .handle h.toNat)
  | .find scope text => (c, .handle (c.find (.of scope text)).toNat)
  | .name h => (c, .name (c.scope h) (c.text h) (c.name? h).isSome)
  | .text h => (c, .bytes (c.text h))
  | .scope h => (c, .bytes (c.scope h))
  | .size => (c, .size c.names.size)

/-- A catalog without an index, and one with an index that has no entries. -/
def starts : List Catalog := [{}, { index := some [] }]

theorem toInt_place (h : UInt64) :
    (place h).toInt =
      if h.toNat ≤ 2 ^ 63 then (h.toNat : Int) - 1 else (h.toNat : Int) - 1 - 2 ^ 64 := by
  have hword := h.toNat_lt
  have hsigned : h.toInt64.toInt =
      if 2 * h.toNat < 2 ^ 64 then (h.toNat : Int) else (h.toNat : Int) - (2 ^ 64 : Nat) :=
    BitVec.toInt_eq_toNat_cond _
  have hone : (1 : Int64).toInt = 1 := by decide
  rw [place, Int64.toInt_sub, hsigned, hone, Int.bmod_def]
  omega

/-- A handle has the name that the registry of the same names has for it: the number that wraps
around is not a place, since no list is that long. -/
theorem name?_eq {c : Catalog} {r : Registry} (hnames : c.names = r.names)
    (hsize : r.size < 2 ^ 63) (h : UInt64) : c.name? h = r.name? h.toNat := by
  have hsize : r.names.size < 2 ^ 63 := hsize
  have hplace := toInt_place h
  have hword := h.toNat_lt
  rw [name?, hnames]
  cases hnat : h.toNat with
  | zero =>
    have hout : ¬(0 ≤ (place h).toInt ∧ (place h).toInt < r.names.size) := by omega
    rw [if_neg hout, Registry.name?]
  | succ i =>
    rw [hnat] at hplace hword
    by_cases hin : i < r.names.size
    · have hi : (place h).toInt = i := by omega
      rw [hi, if_pos (by omega), Registry.name?, Int.toNat_natCast]
    · have hout : ¬(0 ≤ (place h).toInt ∧ (place h).toInt < r.names.size) := by omega
      rw [if_neg hout, Registry.name?, Array.getElem?_eq_none (Nat.le_of_not_lt hin)]

/-- The catalog has the names of the registry, and its index has their handles. -/
structure Indexes (c : Catalog) (r : Registry) : Prop where
  names : c.names = r.names
  lookup_iff : ∀ n h, c.lookup n = some h ↔ r.name? h.toNat = some n

theorem indexes_start {c : Catalog} (h : c ∈ starts) : c.Indexes {} := by
  have hnone : ∀ (n : Name) (h : Nat), ({} : Registry).name? h ≠ some n := by
    intro n h
    cases h <;> simp [Registry.name?]
  simp only [starts, List.mem_cons, List.not_mem_nil, or_false] at h
  rcases h with rfl | rfl <;> exact ⟨rfl, fun n h => by simp [lookup, hnone]⟩

namespace Indexes

variable {c : Catalog} {r : Registry}

theorem lookup_eq (h : c.Indexes r) (hsize : r.size < 2 ^ 63) {n : Name} {i : Handle}
    (hname : r.name? i = some n) : c.lookup n = some (.ofNat i) ∧ (UInt64.ofNat i).toNat = i := by
  have hlt : i < 2 ^ 63 := Nat.lt_of_le_of_lt (Registry.le_size hname).2 hsize
  have hword : (UInt64.ofNat i).toNat = i :=
    UInt64.toNat_ofNat_of_lt' (Nat.lt_trans hlt (by decide))
  refine ⟨(h.lookup_iff n _).2 ?_, hword⟩
  rw [hword, hname]

theorem lookup_none (h : c.Indexes r) {n : Name} (hnew : ∀ i, r.name? i ≠ some n) :
    c.lookup n = none := by
  rw [Option.eq_none_iff_forall_ne_some]
  intro i hi
  exact hnew _ ((h.lookup_iff n i).1 hi)

theorem find_eq (h : c.Indexes r) (hsize : r.size < 2 ^ 63) (n : Name) :
    (c.find n).toNat = r.find n := by
  rcases r.find_cases n with ⟨hzero, hnew⟩ | hname
  · rw [find, h.lookup_none hnew, hzero]
    rfl
  · obtain ⟨hlookup, hword⟩ := h.lookup_eq hsize hname
    rw [find, hlookup]
    exact hword

theorem lookup_push (c : Catalog) (n m : Name) (i : UInt64) :
    (⟨c.names.push n, some ((n, i) :: c.index.getD [])⟩ : Catalog).lookup m =
      if m = n then some i else c.lookup m := by
  have hindex : (c.index.getD []).lookup m = c.lookup m := by
    unfold lookup
    cases c.index <;> rfl
  by_cases hm : m = n
  · simp [lookup, hm]
  · have hne : (m == n) = false := by simpa using hm
    rw [if_neg hm, ← hindex]
    simp [lookup, List.lookup_cons, hne]

theorem intern (h : c.Indexes r) {n : Name} (hsize : (r.intern n).1.size < 2 ^ 63) :
    (c.intern n).1.Indexes (r.intern n).1 ∧ (c.intern n).2.toNat = (r.intern n).2 := by
  rcases r.intern_cases n with ⟨heq, hnew⟩ | ⟨i, heq, hname⟩
  · rw [heq] at hsize ⊢
    have hsize : r.size + 1 < 2 ^ 63 := by
      simpa [Registry.size] using hsize
    have hword : (UInt64.ofNat (r.size + 1)).toNat = r.size + 1 :=
      UInt64.toNat_ofNat_of_lt' (Nat.lt_trans hsize (by decide))
    have hnext : c.names.size + 1 = r.size + 1 := by rw [h.names, Registry.size]
    rw [Catalog.intern, h.lookup_none hnew]
    simp only [hnext]
    refine ⟨⟨by simp only [h.names], fun m i => ?_⟩, hword⟩
    rw [lookup_push, Registry.name?_push]
    by_cases hm : m = n
    · rw [if_pos hm, Option.some.injEq]
      constructor
      · rintro rfl
        exact Or.inr ⟨hword, hm⟩
      · rintro (hname | ⟨hi, -⟩)
        · exact absurd (hm ▸ hname) (hnew _)
        · exact UInt64.toNat_inj.1 (hword.trans hi.symm)
    · rw [if_neg hm, h.lookup_iff]
      simp [hm]
  · rw [heq] at hsize ⊢
    obtain ⟨hlookup, hword⟩ := h.lookup_eq hsize hname
    rw [Catalog.intern, hlookup]
    exact ⟨h, hword⟩

section

variable (h : c.Indexes r) (hsize : r.size < 2 ^ 63) (i : UInt64)

include h hsize

theorem text_eq : c.text i = r.text i.toNat := by
  rw [text, name?_eq h.names hsize, Registry.text, Registry.packed]
  cases r.name? i.toNat <;> rfl

theorem scope_eq : c.scope i = r.scope i.toNat := by
  rw [scope, name?_eq h.names hsize, Registry.scope]
  cases r.name? i.toNat <;> rfl

end

theorem serve (h : c.Indexes r) {q : Registry.Request} (hsize : (r.serve q).1.size < 2 ^ 63) :
    (c.serve q).1.Indexes (r.serve q).1 ∧ (c.serve q).2 = (r.serve q).2 := by
  cases q with
  | intern scope text =>
    obtain ⟨hindexes, hword⟩ := h.intern hsize
    exact ⟨hindexes, congrArg Registry.Answer.handle hword⟩
  | find scope text => exact ⟨h, congrArg Registry.Answer.handle (h.find_eq hsize _)⟩
  | name i =>
    refine ⟨h, ?_⟩
    simp only [Catalog.serve, Registry.serve, h.scope_eq hsize, h.text_eq hsize,
      name?_eq h.names hsize]
  | text i => exact ⟨h, congrArg Registry.Answer.bytes (h.text_eq hsize i)⟩
  | scope i => exact ⟨h, congrArg Registry.Answer.bytes (h.scope_eq hsize i)⟩
  | size => exact ⟨h, by simp only [Catalog.serve, Registry.serve, h.names, Registry.size]⟩

theorem play (h : c.Indexes r) {qs : List Registry.Request}
    (hsize : (Registry.play Registry.serve r qs).1.size < 2 ^ 63) :
    (Registry.play Catalog.serve c qs).1.Indexes (Registry.play Registry.serve r qs).1 ∧
      (Registry.play Catalog.serve c qs).2 = (Registry.play Registry.serve r qs).2 := by
  induction qs generalizing c r with
  | nil => exact ⟨h, rfl⟩
  | cons q qs ih =>
    rw [Registry.play_cons] at hsize
    have hle := (r.serve q).1.size_le_play qs
    obtain ⟨hindexes, hanswer⟩ := h.serve (Nat.lt_of_le_of_lt hle hsize)
    obtain ⟨hrest, hrecord⟩ := ih hindexes hsize
    rw [Registry.play_cons, Registry.play_cons, hanswer, hrecord]
    exact ⟨hrest, rfl⟩

end Indexes

end Catalog

/-! ## Answers -/

/-- Take a registry after any requests, and the record of them. The handles given out are 1, 2, 3, …
up to the size of the registry, in the order of their first appearance; two of them are the same
exactly if scope and text are. A name is found under the handle that was given out for it, or under
0 if there is none. From its first appearance on, a handle leads to the scope and the text that it
was given out for. A word leads to a name exactly if it is within the size, and else to empty texts.
None of these requests changes anything. A catalog, whether it starts with an index or without one,
has given the same answers; its index has exactly the handles of its names. -/
theorem Registry.answers_follow_record {qs : List Request} {r : Registry} {record : Record}
    (hplay : play serve {} qs = (r, record)) :
    (given record).eraseDups = List.range' 1 r.size ∧
    (∀ scope text h scope' text' h', Gave record scope text h → Gave record scope' text' h' →
      (h = h' ↔ scope = scope' ∧ text = text')) ∧
    (∀ scope text, ∃ h, r.serve (.find scope text) = (r, .handle h) ∧
      (Gave record scope text h ∨ h = 0 ∧ ∀ h', ¬Gave record scope text h')) ∧
    (∀ scope text (h : UInt64), Gave record scope text h.toNat →
      r.serve (.name h) = (r, .name scope text true) ∧ r.serve (.text h) = (r, .bytes text) ∧
        r.serve (.scope h) = (r, .bytes scope)) ∧
    (∀ h : UInt64, ∃ scope text known, r.serve (.name h) = (r, .name scope text known) ∧
      (known = true ↔ 1 ≤ h.toNat ∧ h.toNat ≤ r.size) ∧
      (known = false → scope = [] ∧ text = [] ∧ r.serve (.text h) = (r, .bytes []) ∧
        r.serve (.scope h) = (r, .bytes []))) ∧
    r.serve .size = (r, .size r.size) ∧
    (r.size < 2 ^ 63 → ∀ start ∈ Catalog.starts, ∃ c, play Catalog.serve start qs = (c, record) ∧
      c.names = r.names ∧ ∀ n h, c.lookup n = some h ↔ r.name? h.toNat = some n) := by
  have hkept : Kept r record := by
    have hkept := kept_empty.play qs
    rw [hplay] at hkept
    exact hkept
  refine ⟨hkept.order, ?_, ?_, ?_, ?_, rfl, ?_⟩
  · intro scope text h scope' text' h' hgave hgave'
    rw [hkept.gave_iff] at hgave hgave'
    constructor
    · rintro rfl
      exact Name.of_inj.1 (Option.some.inj (hgave.symm.trans hgave'))
    · rintro ⟨rfl, rfl⟩
      exact hkept.distinct hgave hgave'
  · intro scope text
    refine ⟨_, rfl, ?_⟩
    simp only [hkept.gave_iff]
    exact (r.find_cases (.of scope text)).symm
  · intro scope text h hgave
    have hname := (hkept.gave_iff ..).1 hgave
    obtain ⟨hscope, htext⟩ := unpack_name hname
    simp only [serve, hname, hscope, htext, Option.isSome_some, and_self]
  · intro h
    refine ⟨_, _, _, rfl, name?_isSome_iff, fun hunknown => ?_⟩
    have hnone : r.name? h.toNat = none := by simpa using hunknown
    obtain ⟨hscope, htext⟩ := unpack_none hnone
    simp only [serve, hscope, htext, and_self]
  · intro hsize start hstart
    have hend : (play serve {} qs).1.size < 2 ^ 63 := by rwa [hplay]
    obtain ⟨hindexes, hrecord⟩ := (Catalog.indexes_start hstart).play hend
    rw [hplay] at hindexes hrecord
    exact ⟨_, Prod.ext rfl hrecord, hindexes.names, hindexes.lookup_iff⟩

/-- Two names with the same text, one of them interned twice, and words that are no handles: the one
whose place wraps around, and the highest one. -/
def Registry.revisits : List Request :=
  [.name 1, .intern (lit "str") (lit "a"), .intern [] (lit "a"), .intern (lit "str") (lit "a"),
    .name 0x8000000000000000, .name 0xffffffffffffffff]

theorem Registry.answers_follow_record_revisits : ∃ r record,
    play serve {} revisits = (r, record) ∧ given record = [1, 2, 1] ∧ r.size = 2 ∧
    Gave record (lit "str") (lit "a") 1 ∧ r.serve (.scope 1) = (r, .bytes (lit "str")) ∧
    ∃ c, play Catalog.serve {} revisits = (c, record) := by
  obtain ⟨r, record, hplay, hrecord, hsize⟩ : ∃ r record, play serve {} revisits = (r, record) ∧
      (given record, record[1]?) =
        ([1, 2, 1], some (.intern (lit "str") (lit "a"), .handle 1)) ∧ r.size = 2 :=
    ⟨_, _, by cbv, by cbv, by cbv⟩
  obtain ⟨hgiven, hsecond⟩ := Prod.mk.inj hrecord
  have hgave : Gave record (lit "str") (lit "a") 1 := List.mem_of_getElem? hsecond
  obtain ⟨-, -, -, hnames, -, -, hcatalog⟩ := answers_follow_record hplay
  obtain ⟨-, -, hscope⟩ := hnames (lit "str") (lit "a") 1 hgave
  obtain ⟨c, hc, -⟩ := hcatalog (by rw [hsize]; decide) {} List.mem_cons_self
  exact ⟨r, record, hplay, hgiven, hsize, hgave, hscope, c, hc⟩

end StackLang
