/-!
# Stacks

A stack is a list with its top first. It knows its height, so that a limit on the height can be
checked at once, however high the stack is.
-/

namespace StackLang

structure Stack (α : Type) where
  items : List α := []
  height : Nat := items.length
  height_eq : height = items.length := by rfl
deriving DecidableEq, Repr

namespace Stack

variable {α : Type}

/-- A stack with these items, top first. -/
def ofList (items : List α) : Stack α := { items }

/-- The stack with its top `n` items replaced. -/
def replace (s : Stack α) (n : Nat) (items : List α) : Stack α where
  items := items ++ s.items.drop n
  height := items.length + (s.height - n)
  height_eq := by rw [List.length_append, List.length_drop, s.height_eq]

def push (s : Stack α) (a : α) : Stack α := s.replace 0 [a]

/-- The stack without its top `n` items. -/
def drop (s : Stack α) (n : Nat) : Stack α := s.replace n []

/-- A stack that has reached its limit; a limit of 0 is none. -/
def full (s : Stack α) (limit : Int) : Bool := limit ≠ 0 && limit ≤ s.height

/-- Stacks with the same items are the same. -/
theorem eq_of_items {s t : Stack α} (h : s.items = t.items) : s = t := by
  obtain ⟨items, height, hs⟩ := s
  obtain ⟨items', height', ht⟩ := t
  obtain rfl : items = items' := h
  obtain rfl : height = height' := hs.trans ht.symm
  rfl

@[simp] theorem items_ofList (items : List α) : (ofList items).items = items := rfl

@[simp] theorem items_replace (s : Stack α) (n : Nat) (items : List α) :
    (s.replace n items).items = items ++ s.items.drop n := rfl

@[simp] theorem items_push (s : Stack α) (a : α) : (s.push a).items = a :: s.items := rfl

@[simp] theorem items_drop (s : Stack α) (n : Nat) : (s.drop n).items = s.items.drop n := rfl

end Stack

end StackLang
