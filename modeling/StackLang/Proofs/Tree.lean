import StackLang.Program.Draft

/-!
# Sources as trees

A source is a list of items: constants, operators, calls of words, and blocks, which are lists of
items themselves. Nothing here speaks of addresses or instructions. Blocks are numbered by their
closing braces, from a given first number on, so that each occurrence of a block has a number of its
own even where two blocks have the same text.

* `Tree.read` builds the items of a sequence of lexemes.
* `lexemes_of_read`: written out again, the items are the lexemes they were read from.
* `numbers_of_read`: the blocks have consecutive numbers in the order of their closing braces.
-/

/-! ## Braces -/

namespace StackLang.Token

def Opening (t : Token) : Prop := t.kind = .word ∧ t.text = lit "\x7b"

def Closing (t : Token) : Prop := t.kind = .word ∧ t.text = lit "\x7d"

instance (t : Token) : Decidable t.Opening := inferInstanceAs (Decidable (_ ∧ _))

instance (t : Token) : Decidable t.Closing := inferInstanceAs (Decidable (_ ∧ _))

end StackLang.Token

namespace StackLang.Tree

/-! ## Items -/

/-- What a literal stands for. -/
inductive Constant where
  | bool (b : Bool)
  | int (n : Int64)
  | sym (s : Bytes)
  | str (s : Bytes)
deriving DecidableEq, Repr

/-- The operators that run no code. -/
inductive Primitive where
  | define
  | add
  | arith (f : Arithmetic)
  | div
  | compare (f : Comparison)
  | eq
  | drop
  | dup
  | swap
  | rot
  | unrot
  | not
  | connect (f : Connective)
deriving DecidableEq, Repr

inductive Atom where
  | constant (c : Constant)
  | primitive (p : Primitive)
  /-- Run the code on top of the stack. -/
  | exec
  /-- Run one of two blocks. -/
  | choose
  /-- Run a block as long as another one says so. -/
  | loop
  | call (word : Bytes)
deriving DecidableEq, Repr

inductive Item where
  | atom (a : Atom)
  | block (number : Nat) (body : List Item)

/-- What a token says: a brace, or an atom. -/
inductive Lexeme where
  | opening
  | closing
  | atom (a : Atom)
deriving DecidableEq, Repr

mutual

/-- An item written out. -/
def Item.lexemes : Item → List Lexeme
  | .atom a => [.atom a]
  | .block _ body => .opening :: lexemes body ++ [.closing]

/-- Items written out one after the other. -/
def lexemes : List Item → List Lexeme
  | [] => []
  | item :: items => item.lexemes ++ lexemes items

end

mutual

/-- The blocks of an item, itself included, in the order of their closing braces. -/
def Item.blocks : Item → List (Nat × List Item)
  | .atom _ => []
  | .block number body => blocks body ++ [(number, body)]

/-- All blocks of a list of items, in the order of their closing braces. -/
def blocks : List Item → List (Nat × List Item)
  | [] => []
  | item :: items => item.blocks ++ blocks items

end

/-! ## Reading -/

/-- The words with a meaning of their own, braces and loops apart. -/
def keywords : List (Bytes × Atom) :=
  [(lit "+", .primitive .add), (lit "-", .primitive (.arith .sub)),
    (lit "*", .primitive (.arith .mul)), (lit "/", .primitive .div),
    (lit "<", .primitive (.compare .lt)), (lit "<=", .primitive (.compare .le)),
    (lit ">", .primitive (.compare .gt)), (lit ">=", .primitive (.compare .ge)),
    (lit "=", .primitive .eq), (lit ".", .primitive .drop), (lit "dup", .primitive .dup),
    (lit "swap", .primitive .swap), (lit "rot", .primitive .rot),
    (lit "-rot", .primitive .unrot), (lit "not", .primitive .not),
    (lit "and", .primitive (.connect .and)), (lit "or", .primitive (.connect .or)),
    (lit "exec", .exec), (lit "def", .primitive .define), (lit "true", .constant (.bool true)),
    (lit "false", .constant (.bool false)), (lit "if", .choose)]

def Lexeme.ofWord (s : Bytes) : Lexeme :=
  if s = lit "\x7b" then .opening
  else if s = lit "\x7d" then .closing
  else if s = lit "while" then .atom .loop
  else .atom ((keywords.lookup s).getD (.call s))

/-- What a token says, if it says anything. -/
def Lexeme.ofToken? (t : Token) : Option Lexeme :=
  match t.kind with
  | .number => (Decimal.int64? t.text).map fun n => .atom (.constant (.int n))
  | .string => some (.atom (.constant (.str (Literal.unquote t.text))))
  | .symbol => some (.atom (.constant (.sym t.text.tail)))
  | .word => some (ofWord t.text)
  | .other _ => none

/-- Read lexemes behind `items`. For every brace that is open, `opens` has the items before it,
innermost first; `next` is the number of the next block. -/
def read (next : Nat) (items : List Item) (opens : List (List Item)) :
    List Lexeme → Option (List Item)
  | [] => if opens.isEmpty then some items else none
  | .atom a :: ls => read next (items ++ [.atom a]) opens ls
  | .opening :: ls => read next [] (items :: opens) ls
  | .closing :: ls =>
    match opens with
    | [] => none
    | before :: opens => read (next + 1) (before ++ [.block next items]) opens ls

/-- What the tokens of a source say. -/
def lexemes? (src : Bytes) : Option (List Lexeme) :=
  match (tokenize src).unclosed with
  | some _ => none
  | none => (tokenize src).list.mapM Lexeme.ofToken?

/-- A source as a tree, with blocks numbered from `first` on. -/
def ofSource? (first : Nat) (src : Bytes) : Option (List Item) :=
  (lexemes? src).bind (read first [] [])

/-! ## What was read -/

theorem lexemes_append (items items' : List Item) :
    lexemes (items ++ items') = lexemes items ++ lexemes items' := by
  induction items with
  | nil => rfl
  | cons item items ih => simp [lexemes, ih]

theorem blocks_append (items items' : List Item) :
    blocks (items ++ items') = blocks items ++ blocks items' := by
  induction items with
  | nil => rfl
  | cons item items ih => simp [blocks, ih]

/-- The lexemes read so far, with braces still open. -/
def lexemesSoFar (items : List Item) : List (List Item) → List Lexeme
  | [] => lexemes items
  | before :: opens => lexemesSoFar before opens ++ .opening :: lexemes items

/-- The blocks closed so far, with braces still open. -/
def blocksSoFar (items : List Item) : List (List Item) → List (Nat × List Item)
  | [] => blocks items
  | before :: opens => blocksSoFar before opens ++ blocks items

theorem lexemesSoFar_append (items items' : List Item) (opens : List (List Item)) :
    lexemesSoFar (items ++ items') opens = lexemesSoFar items opens ++ lexemes items' := by
  cases opens <;> simp [lexemesSoFar, lexemes_append]

theorem blocksSoFar_append (items items' : List Item) (opens : List (List Item)) :
    blocksSoFar (items ++ items') opens = blocksSoFar items opens ++ blocks items' := by
  cases opens <;> simp [blocksSoFar, blocks_append]

/-- Closing a brace closes one more block. -/
theorem blocksSoFar_close (number : Nat) (items before : List Item) (opens : List (List Item)) :
    blocksSoFar (before ++ [.block number items]) opens =
      blocksSoFar items (before :: opens) ++ [(number, items)] := by
  simp [blocksSoFar_append, blocksSoFar, blocks, Item.blocks]

theorem lexemesSoFar_close (number : Nat) (items before : List Item) (opens : List (List Item)) :
    lexemesSoFar (before ++ [.block number items]) opens =
      lexemesSoFar items (before :: opens) ++ [.closing] := by
  simp [lexemesSoFar_append, lexemesSoFar, lexemes, Item.lexemes]

theorem lexemes_of_read {next : Nat} {items tree : List Item} {opens : List (List Item)}
    {ls : List Lexeme} (h : read next items opens ls = some tree) :
    lexemes tree = lexemesSoFar items opens ++ ls := by
  fun_induction read next items opens ls with
  | case1 next items opens hopens =>
    cases h
    rw [List.isEmpty_iff] at hopens
    simp [hopens, lexemesSoFar]
  | case2 => cases h
  | case3 next items opens a ls ih =>
    rw [ih h, lexemesSoFar_append]
    simp [lexemes, Item.lexemes]
  | case4 next items opens ls ih =>
    rw [ih h]
    simp [lexemesSoFar, lexemes]
  | case5 => cases h
  | case6 next items ls before opens ih =>
    rw [ih h, lexemesSoFar_close]
    simp

theorem numbers_of_read {first next : Nat} {items tree : List Item} {opens : List (List Item)}
    {ls : List Lexeme} (h : read next items opens ls = some tree)
    (hsofar : (blocksSoFar items opens).map Prod.fst = List.range' first (next - first))
    (hnext : first ≤ next) :
    (blocks tree).map Prod.fst = List.range' first (blocks tree).length := by
  fun_induction read next items opens ls with
  | case1 next items opens hopens =>
    cases h
    rw [List.isEmpty_iff] at hopens
    simp only [hopens, blocksSoFar] at hsofar
    have hlength := congrArg List.length hsofar
    simp only [List.length_map, List.length_range'] at hlength
    rw [hsofar, hlength]
  | case2 => cases h
  | case3 next items opens a ls ih =>
    exact ih h (by simpa [blocksSoFar_append, blocks, Item.blocks] using hsofar) hnext
  | case4 next items opens ls ih =>
    exact ih h (by simpa [blocksSoFar, blocks] using hsofar) hnext
  | case5 => cases h
  | case6 next items ls before opens ih =>
    refine ih h ?_ (Nat.le_succ_of_le hnext)
    rw [blocksSoFar_close, List.map_append, hsofar, Nat.succ_sub hnext, List.range'_concat]
    simp [Nat.add_sub_cancel' hnext]

/-- The tree of a source spells out the source. -/
theorem lexemes_of_ofSource? {first : Nat} {src : Bytes} {tree : List Item}
    (h : ofSource? first src = some tree) : lexemes? src = some (lexemes tree) := by
  obtain ⟨ls, hls, hread⟩ := Option.bind_eq_some_iff.1 h
  rw [hls, lexemes_of_read hread]
  rfl

/-- The blocks of a source are numbered in the order of their closing braces. -/
theorem numbers_of_ofSource? {first : Nat} {src : Bytes} {tree : List Item}
    (h : ofSource? first src = some tree) :
    (blocks tree).map Prod.fst = List.range' first (blocks tree).length := by
  obtain ⟨ls, -, hread⟩ := Option.bind_eq_some_iff.1 h
  exact numbers_of_read hread (by simp [blocksSoFar, blocks]) (Nat.le_refl first)

end StackLang.Tree
