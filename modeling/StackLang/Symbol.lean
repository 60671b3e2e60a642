import StackLang.Text.Bytes

/-!
# Symbols

A registry hands out a handle for each name it is given: 1, 2, 3, … in the order in which the names
first appear. The same name always gets the same handle, and handle 0 stands for no name.

Each name belongs to a scope. Words and symbol literals share one, so that `:name` refers to the word
`name`; strings have their own.
-/

namespace StackLang

structure Name where
  text : ByteArray
  scope : ByteArray

instance : DecidableEq Name
  | ⟨text, scope⟩, ⟨text', scope'⟩ =>
    match ByteArray.decEq text text', ByteArray.decEq scope scope' with
    | isTrue htext, isTrue hscope => isTrue (by rw [htext, hscope])
    | isFalse htext, _ => isFalse fun h => htext (congrArg Name.text h)
    | _, isFalse hscope => isFalse fun h => hscope (congrArg Name.scope h)

instance : Repr Name where
  reprPrec n := reprPrec (Bytes.unpack n.scope, Bytes.unpack n.text)

namespace Name

/-- The name `text` in a scope. -/
def of (scope text : Bytes) : Name := ⟨text.pack, scope.pack⟩

/-- The name of a word or symbol. -/
def ofWord (s : Bytes) : Name := of [] s

/-- The name of a string. -/
def ofString (s : Bytes) : Name := of (lit "str") s

theorem of_inj {scope scope' text text' : Bytes} :
    of scope text = of scope' text' ↔ scope = scope' ∧ text = text' := by
  simp [of, Bytes.pack_inj, and_comm]

end Name

abbrev Handle := Nat

/-- The names that have a handle, in handle order. -/
structure Registry where
  names : Array Name := #[]
deriving DecidableEq, Repr

namespace Registry

def size (r : Registry) : Nat := r.names.size

/-- The name of a handle. -/
def name? (r : Registry) : Handle → Option Name
  | 0 => none
  | h + 1 => r.names[h]?

/-- The text of a handle's name in compact form. -/
def packed (r : Registry) (h : Handle) : ByteArray :=
  match r.name? h with
  | some n => n.text
  | none => .empty

/-- The text of a handle's name, empty if the handle has none. -/
def text (r : Registry) (h : Handle) : Bytes := .unpack (r.packed h)

/-- The scope of a handle's name, empty if the handle has none. -/
def scope (r : Registry) (h : Handle) : Bytes :=
  match r.name? h with
  | some n => .unpack n.scope
  | none => []

/-- The name of the string that two texts make together. -/
def joined (r : Registry) (a b : Handle) : Name := ⟨r.packed a ++ r.packed b, (lit "str").pack⟩

theorem joined_eq (r : Registry) (a b : Handle) :
    r.joined a b = .ofString (r.text a ++ r.text b) := by
  simp only [joined, Name.ofString, Name.of, text, Bytes.pack_append, Bytes.pack_unpack]

/-- The handle of a name among the first handles, or 0 if it has none there. -/
def findUpTo (r : Registry) (n : Name) : Handle → Handle
  | 0 => 0
  | h + 1 =>
    match r.names[h]? with
    | some m => if m = n then h + 1 else r.findUpTo n h
    | none => r.findUpTo n h

/-- The handle of a name, or 0 if it has none. -/
def find (r : Registry) (n : Name) : Handle := r.findUpTo n r.size

/-- The handle of a name, which is registered if it is new. -/
def intern (r : Registry) (n : Name) : Registry × Handle :=
  match r.find n with
  | 0 => (⟨r.names.push n⟩, r.size + 1)
  | h + 1 => (r, h + 1)

theorem findUpTo_succ (r : Registry) (n : Name) (h : Handle) :
    r.findUpTo n (h + 1) = if r.names[h]? = some n then h + 1 else r.findUpTo n h := by
  rw [findUpTo]
  cases r.names[h]? <;> simp

/-- A handle that is found has the name that was sought. -/
theorem name?_findUpTo {r : Registry} {n : Name} {h : Handle} (hfound : r.findUpTo n h ≠ 0) :
    r.name? (r.findUpTo n h) = some n := by
  induction h with
  | zero => exact absurd rfl hfound
  | succ h ih =>
    rw [findUpTo_succ] at hfound ⊢
    split
    · assumption
    · rename_i hne
      rw [if_neg hne] at hfound
      exact ih hfound

/-- A name that is not found has no handle so far. -/
theorem findUpTo_eq_zero {r : Registry} {n : Name} {h : Handle} :
    r.findUpTo n h = 0 ↔ ∀ i < h, r.names[i]? ≠ some n := by
  induction h with
  | zero => simp [findUpTo]
  | succ h ih =>
    rw [findUpTo_succ]
    split
    · rename_i heq
      simp only [Nat.add_one_ne_zero, false_iff]
      exact fun hall => hall h (Nat.lt_succ_self h) heq
    · rename_i hne
      rw [ih]
      refine ⟨fun hall i hi => ?_, fun hall i hi => hall i (Nat.lt_succ_of_lt hi)⟩
      rcases Nat.lt_succ_iff_lt_or_eq.mp hi with hlt | heq
      · exact hall i hlt
      · exact heq ▸ hne

end Registry

end StackLang
