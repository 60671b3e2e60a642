import Mathlib.Data.List.Forall2
import StackLang.Proofs.Assembly

/-!
# Compiling a tree

A source compiles exactly if it is a tree, and what it adds to the program is the code of that tree:
the blocks in the order of their closing braces, then the top-level items.

* `Drafted`: the relation between a draft and the part of a tree that was read so far.
* `compiled_of_compile`: what a source that compiles adds to a program.
* `compile_ok_iff`: a source compiles exactly if it is a tree.
* `Draft.Grows`: compiling only ever adds names, also where it fails.
-/

namespace StackLang.Tree

/-! ## Tokens -/

/-- The code of an atom that is the same everywhere. -/
def Atom.code : Atom → List Op
  | constant (.bool b) => [.push (.bool b)]
  | primitive q => [q.op]
  | exec => [.exec]
  | choose => [.select, .exec]
  | _ => []

def Atom.isFixed : Atom → Bool
  | constant (.bool _) => true
  | primitive _ => true
  | exec => true
  | choose => true
  | _ => false

theorem Atom.encodes_code {a : Atom} (h : a.isFixed) (r : Registry) (T : Table) (p : Nat) :
    Encodes r T p (.atom a) a.code := by
  cases a with
  | constant c =>
    cases c with
    | bool b => exact .constant (.bool b)
    | _ => cases h
  | primitive q => exact .primitive q
  | exec => exact .exec
  | choose => exact .choose
  | loop => cases h
  | call word => cases h

theorem lookup_map {α β γ : Type} [BEq α] (f : β → γ) (a : α) (l : List (α × β)) :
    (l.map fun e => (e.1, f e.2)).lookup a = (l.lookup a).map f := by
  induction l with
  | nil => rfl
  | cons e l ih =>
    obtain ⟨k, b⟩ := e
    simp only [List.map_cons, List.lookup_cons, ih]
    cases a == k <;> rfl

/-- The table of the compiler holds the code of the keywords. -/
theorem lookup_reserved (s : Bytes) : Draft.reserved.lookup s = (keywords.lookup s).map Atom.code :=
  lookup_map Atom.code s keywords

theorem isFixed_of_keyword {s : Bytes} {a : Atom} (h : keywords.lookup s = some a) :
    a.isFixed := by
  have hall : keywords.all fun e => e.2.isFixed := rfl
  obtain ⟨l₁, l₂, hsplit, -⟩ := List.lookup_eq_some_iff.1 h
  rw [List.all_eq_true] at hall
  exact hall (s, a) (by simp [hsplit])

/-- A token that says nothing is refused, with no effect. -/
theorem token_of_none {t : Token} (h : Lexeme.ofToken? t = none) (d : Draft) :
    ∃ e, d.token t = (d, some e) := by
  obtain ⟨kind, text, position⟩ := t
  cases kind with
  | number =>
    have hnumber : Decimal.int64? text = none := Option.map_eq_none_iff.1 h
    simp [Draft.token, hnumber]
  | string => cases h
  | symbol => cases h
  | word => cases h
  | other tag => exact ⟨_, rfl⟩

theorem ofWord_of_brace {t : Token} {l : Lexeme} (h : Lexeme.ofToken? t = some l)
    (hl : ∀ a, l ≠ .atom a) : t.kind = .word ∧ Lexeme.ofWord t.text = l := by
  unfold Lexeme.ofToken? at h
  split at h
  · obtain ⟨n, -, rfl⟩ := Option.map_eq_some_iff.1 h
    exact absurd rfl (hl _)
  · cases h
    exact absurd rfl (hl _)
  · cases h
    exact absurd rfl (hl _)
  · rename_i hkind
    exact ⟨hkind, Option.some.inj h⟩
  · cases h

theorem token_of_opening {t : Token} (h : Lexeme.ofToken? t = some .opening) (d : Draft) :
    d.token t = (d.openBlock t.position, none) := by
  obtain ⟨hkind, hword⟩ := ofWord_of_brace h (by simp)
  unfold Lexeme.ofWord at hword
  unfold Draft.token Draft.word
  rw [hkind]
  split at hword
  · rename_i hs
    simp [hs]
  · split at hword
    · cases hword
    · split at hword <;> cases hword

theorem token_of_closing {t : Token} (h : Lexeme.ofToken? t = some .closing) (d : Draft) :
    d.token t = d.closeBlock t.position := by
  obtain ⟨hkind, hword⟩ := ofWord_of_brace h (by simp)
  unfold Lexeme.ofWord at hword
  unfold Draft.token Draft.word
  rw [hkind]
  split at hword
  · cases hword
  · rename_i hopen
    split at hword
    · simp only [if_neg hopen]
      rename_i hs
      simp [hs]
    · split at hword <;> cases hword

theorem word_of_atom {p : Position} {s : Bytes} {a : Atom} (h : Lexeme.ofWord s = .atom a)
    (d : Draft) :
    ∃ symbols code, d.word p s = (({ d with symbols } : Draft).emit code, none) ∧
      d.symbols.KeptBy symbols ∧ (d.symbols.Distinct → symbols.Distinct) ∧
      ∀ T, Encodes symbols T d.current.size (.atom a) code := by
  unfold Lexeme.ofWord at h
  unfold Draft.word
  split at h
  · cases h
  rename_i hopen
  split at h
  · cases h
  rename_i hclose
  simp only [if_neg hopen, if_neg hclose, lookup_reserved]
  split at h
  · rename_i hloop
    cases h
    simp only [if_pos hloop]
    exact ⟨d.symbols, Draft.loopCode d.current.size, rfl, .refl _, id, fun T => .loop⟩
  rename_i hloop
  simp only [if_neg hloop]
  cases hword : keywords.lookup s with
  | some a' =>
    rw [hword] at h
    cases h
    refine ⟨d.symbols, a'.code, rfl, .refl _, id, fun T => ?_⟩
    exact Atom.encodes_code (isFixed_of_keyword hword) d.symbols T d.current.size
  | none =>
    rw [hword] at h
    cases h
    refine ⟨_, _, rfl, Registry.keptBy_intern _ _, fun hd => hd.intern _, fun T => ?_⟩
    exact .call (Registry.name?_intern _ _)

/-- An atom is appended to the innermost block, with its names interned. -/
theorem token_of_atom {t : Token} {a : Atom} (h : Lexeme.ofToken? t = some (.atom a)) (d : Draft) :
    ∃ symbols code, d.token t = (({ d with symbols } : Draft).emit code, none) ∧
      d.symbols.KeptBy symbols ∧ (d.symbols.Distinct → symbols.Distinct) ∧
      ∀ T, Encodes symbols T d.current.size (.atom a) code := by
  obtain ⟨kind, text, position⟩ := t
  cases kind with
  | number =>
    obtain ⟨n, hn, ha⟩ := Option.map_eq_some_iff.1 h
    cases ha
    have hn' : Decimal.int64? text = some n := hn
    simp only [Draft.token, hn']
    exact ⟨d.symbols, [.push (.int n)], rfl, .refl _, id, fun T => .constant (.int n)⟩
  | string =>
    cases h
    refine ⟨_, _, rfl, Registry.keptBy_intern _ _, fun hd => hd.intern _, fun T => ?_⟩
    exact .constant (.str (Registry.name?_intern _ _))
  | symbol =>
    cases h
    refine ⟨_, _, rfl, Registry.keptBy_intern _ _, fun hd => hd.intern _, fun T => ?_⟩
    exact .constant (.sym (Registry.name?_intern _ _))
  | word => exact word_of_atom (Option.some.inj h) d
  | other tag => cases h

/-! ## Drafts -/

/-- A draft that was begun on the code `base` with the blocks `T`, and has since finished the blocks
`new`. The innermost open block has the code of `items`, and `opens` are the items before each brace
that is open. -/
structure Drafted (base : Array Op) (T new : Table) (items : List Item) (opens : List (List Item))
    (d : Draft) : Prop where
  current : Assembled d.symbols (T ++ new) 0 items d.current.toList
  around : List.Forall₂
    (fun brace before => Assembled d.symbols (T ++ new) 0 before brace.before.toList) d.braces opens
  finished : ∃ code, d.ops.toList = base.toList ++ code ∧
    Filled d.symbols (T ++ new) base.size new code
  bodies : new.map Placement.body = (blocksSoFar items opens).map Prod.snd

theorem Drafted.opening {base : Array Op} {T new : Table} {items : List Item}
    {opens : List (List Item)} {d : Draft} (h : Drafted base T new items opens d) (p : Position) :
    Drafted base T new [] (items :: opens) (d.openBlock p) where
  current := .nil
  around := .cons h.current h.around
  finished := h.finished
  bodies := by simpa [blocksSoFar, blocks] using h.bodies

theorem Drafted.atom {base : Array Op} {T new : Table} {items : List Item}
    {opens : List (List Item)} {d : Draft} (h : Drafted base T new items opens d) {a : Atom}
    {symbols : Registry} {code : List Op} (hkept : d.symbols.KeptBy symbols)
    (hcode : Encodes symbols (T ++ new) d.current.size (.atom a) code) :
    Drafted base T new (items ++ [.atom a]) opens (({ d with symbols } : Draft).emit code) where
  current := by
    rw [Draft.emit, Array.toList_appendList]
    refine (h.current.mono hkept List.prefix_rfl).append ?_
    simpa using hcode.assembled
  around := h.around.imp fun _ _ hbefore => hbefore.mono hkept List.prefix_rfl
  finished := by
    obtain ⟨done, hops, hfilled⟩ := h.finished
    exact ⟨done, hops, hfilled.mono hkept List.prefix_rfl⟩
  bodies := by simpa [blocksSoFar_append, blocks, Item.blocks] using h.bodies

/-- A closing brace finishes the innermost block, behind all code that is finished. -/
theorem Drafted.closing {base : Array Op} {T new : Table} {items before : List Item}
    {opens : List (List Item)} {d : Draft} (h : Drafted base T new items (before :: opens) d)
    (p : Position) :
    ∃ d', d.closeBlock p = (d', none) ∧ Drafted base T (new ++ [⟨d.ops.size, items⟩])
      (before ++ [.block (T.length + new.length) items]) opens d' := by
  obtain ⟨hcurrent, haround, ⟨done, hops, hfilled⟩, hbodies⟩ := h
  rcases haround' : d.braces with _ | ⟨brace, braces⟩
  · rw [haround'] at haround
    cases haround
  rw [haround'] at haround
  obtain ⟨hbefore, hbraces⟩ := List.forall₂_cons.1 haround
  refine ⟨_, by rw [Draft.closeBlock, haround'], ?_⟩
  have hgrown : T ++ new <+: T ++ (new ++ [⟨d.ops.size, items⟩]) :=
    ⟨[⟨d.ops.size, items⟩], by simp⟩
  have hsize : d.ops.size = base.size + done.length := by
    simpa using congrArg List.length hops
  have hself : (T ++ (new ++ [⟨d.ops.size, items⟩]))[T.length + new.length]? =
      some ⟨d.ops.size, items⟩ := by
    rw [← List.append_assoc, ← List.length_append, List.getElem?_concat_length]
  constructor
  · rw [Draft.append, Draft.emit, Array.toList_appendList]
    refine (hbefore.mono (.refl _) hgrown).append ?_
    exact Encodes.assembled (.block hself)
  · exact hbraces.imp fun _ _ hb => hb.mono (.refl _) hgrown
  · refine ⟨done ++ (d.current.toList.map (Op.relocate d.ops.size) ++ [.ret]), ?_, ?_⟩
    · show (d.ops ++ (d.current.push .ret).map (Op.relocate d.ops.size)).toList = _
      simp [hops, Op.relocate]
    · rw [hsize]
      refine (hfilled.mono (.refl _) (hsize ▸ hgrown)).concat ?_
      have hmoved := (hcurrent.mono (.refl _) hgrown).relocate d.ops.size
      rw [Nat.zero_add, hsize] at hmoved
      simpa [hsize] using hmoved
  · rw [blocksSoFar_close]
    simp [hbodies]

/-- A draft and the tree read so far take the next token alike. -/
theorem tokens_of_read {base : Array Op} {T new : Table} {items tree : List Item}
    {opens : List (List Item)} {d : Draft} {ts : List Token} {ls : List Lexeme}
    (h : Drafted base T new items opens d) (hls : ts.mapM Lexeme.ofToken? = some ls)
    (hread : read (T.length + new.length) items opens ls = some tree) :
    ∃ d' new', d.tokens ts = (d', none) ∧ Drafted base T new' tree [] d' := by
  induction ts generalizing d new items opens ls with
  | nil =>
    obtain rfl : ls = [] := by simpa using hls.symm
    rw [read] at hread
    split at hread
    · rename_i hopens
      cases hread
      rw [List.isEmpty_iff] at hopens
      subst hopens
      exact ⟨d, new, rfl, h⟩
    · cases hread
  | cons t ts ih =>
    rw [List.mapM_cons] at hls
    obtain ⟨l, hl, ls', hls', heq⟩ : ∃ l, Lexeme.ofToken? t = some l ∧
        ∃ ls', ts.mapM Lexeme.ofToken? = some ls' ∧ l :: ls' = ls := by
      simpa [Option.bind_eq_some_iff] using hls
    subst heq
    cases l with
    | opening =>
      rw [Draft.tokens, token_of_opening hl]
      exact ih (h.opening t.position) hls' hread
    | closing =>
      cases opens with
      | nil => cases hread
      | cons before opens =>
        obtain ⟨d', hclose, hd'⟩ := h.closing t.position
        rw [Draft.tokens, token_of_closing hl, hclose]
        exact ih hd' hls' (by simpa [read, Nat.add_assoc] using hread)
    | atom a =>
      obtain ⟨symbols, code, htoken, hkept, -, hcode⟩ := token_of_atom hl d
      rw [Draft.tokens, htoken]
      exact ih (h.atom hkept (hcode _)) hls' hread

/-- Tokens that a draft takes without an open brace at the end are the tokens of a tree. -/
theorem read_of_tokens {base : Array Op} {T new : Table} {items : List Item}
    {opens : List (List Item)} {d d' : Draft} {ts : List Token}
    (h : Drafted base T new items opens d) (htokens : d.tokens ts = (d', none))
    (hclosed : d'.braces = []) :
    ∃ ls tree, ts.mapM Lexeme.ofToken? = some ls ∧
      read (T.length + new.length) items opens ls = some tree := by
  induction ts generalizing d new items opens with
  | nil =>
    cases htokens
    have hopens : opens = [] := by
      have := h.around
      rw [hclosed] at this
      exact List.forall₂_nil_left_iff.1 this
    exact ⟨[], items, rfl, by simp [read, hopens]⟩
  | cons t ts ih =>
    rw [Draft.tokens] at htokens
    cases hl : Lexeme.ofToken? t with
    | none =>
      obtain ⟨e, he⟩ := token_of_none hl d
      rw [he] at htokens
      cases htokens
    | some l =>
      suffices ∃ ls tree, ts.mapM Lexeme.ofToken? = some ls ∧
          read (T.length + new.length) items opens (l :: ls) = some tree by
        obtain ⟨ls, tree, hls, hread⟩ := this
        exact ⟨l :: ls, tree, by simp [List.mapM_cons, hl, hls], hread⟩
      cases l with
      | opening =>
        rw [token_of_opening hl] at htokens
        exact ih (h.opening t.position) htokens
      | closing =>
        rw [token_of_closing hl] at htokens
        cases opens with
        | nil =>
          have hbraces := List.forall₂_nil_right_iff.1 h.around
          rw [Draft.closeBlock, hbraces] at htokens
          cases htokens
        | cons before opens =>
          obtain ⟨d'', hclose, hd''⟩ := h.closing t.position
          rw [hclose] at htokens
          obtain ⟨ls, tree, hls, hread⟩ := ih hd'' htokens
          exact ⟨ls, tree, hls, by simpa [read, Nat.add_assoc] using hread⟩
      | atom a =>
        obtain ⟨symbols, code, htoken, hkept, -, hcode⟩ := token_of_atom hl d
        rw [htoken] at htokens
        exact ih (h.atom hkept (hcode _)) htokens

/-! ## Sources -/

/-- A program is the code `base` followed by the code of a tree, whose blocks are numbered behind
those of `T`. -/
structure Compiled (base : Array Op) (T : Table) (tree : List Item) (new : Table) (r : Registry)
    (blockCode rootCode : List Op) (program : Program) : Prop where
  ops : program.ops.toList = base.toList ++ (blockCode ++ rootCode)
  entry : program.entry = (base.size + blockCode.length : Nat)
  bodies : new.map Placement.body = (blocks tree).map Prod.snd
  filled : Filled r (T ++ new) base.size new blockCode
  assembled : Assembled r (T ++ new) (base.size + blockCode.length) tree rootCode

theorem drafted_start (d : Draft) (T : Table) :
    Drafted d.ops T [] [] [] { d with current := #[], braces := [], layouts := [] } where
  current := .nil
  around := .nil
  finished := ⟨[], by simp, .nil⟩
  bodies := rfl

/-- Appending the top-level code completes the program. -/
theorem Drafted.compiled {base : Array Op} {T new : Table} {tree : List Item} {d : Draft}
    (h : Drafted base T new tree [] d) :
    ∃ blockCode rootCode, Compiled base T tree new (d.append d.current).symbols blockCode rootCode
      ⟨(d.append d.current).ops, d.ops.size⟩ := by
  obtain ⟨code, hops, hfilled⟩ := h.finished
  have hsize : d.ops.size = base.size + code.length := by
    simpa using congrArg List.length hops
  refine ⟨code, d.current.toList.map (Op.relocate d.ops.size), ?_, ?_, ?_, hfilled, ?_⟩
  · simp [Draft.append, hops]
  · exact congrArg Nat.cast hsize
  · simpa [blocksSoFar] using h.bodies
  · show Assembled d.symbols _ _ _ _
    simpa [hsize] using h.current.relocate d.ops.size

theorem compiled_of_compile {d d' : Draft} {src : Bytes} {program : Program}
    (h : d.compile src = (d', .ok program)) (T : Table) :
    ∃ tree new blockCode rootCode, ofSource? T.length src = some tree ∧
      Compiled d.ops T tree new d'.symbols blockCode rootCode program := by
  unfold Draft.compile at h
  simp only at h
  split at h
  · cases h
  rename_i d₁ htokens
  split at h
  · cases h
  rename_i hend
  cases h
  unfold Draft.endError? at hend
  split at hend
  · cases hend
  · cases hend
  rename_i hunclosed hbraces
  obtain ⟨ls, tree, hls, hread⟩ := read_of_tokens (drafted_start d T) htokens hbraces
  obtain ⟨d₂, new, htokens₂, hdrafted⟩ := tokens_of_read (drafted_start d T) hls hread
  rw [htokens] at htokens₂
  cases htokens₂
  obtain ⟨blockCode, rootCode, hcompiled⟩ := hdrafted.compiled
  refine ⟨tree, new, blockCode, rootCode, ?_, hcompiled⟩
  rw [ofSource?, lexemes?, hunclosed]
  simp only [hls]
  exact hread

/-- A source compiles exactly if it is a tree. -/
theorem compile_ok_iff (d : Draft) (src : Bytes) (first : Nat) :
    (∃ d' program, d.compile src = (d', .ok program)) ↔
      ∃ tree, ofSource? first src = some tree := by
  obtain ⟨T, rfl⟩ : ∃ T : Table, T.length = first := ⟨List.replicate first ⟨0, []⟩, by simp⟩
  constructor
  · rintro ⟨d', program, h⟩
    obtain ⟨tree, -, -, -, htree, -⟩ := compiled_of_compile h T
    exact ⟨tree, htree⟩
  · rintro ⟨tree, htree⟩
    obtain ⟨ls, hls, hread⟩ := Option.bind_eq_some_iff.1 htree
    unfold lexemes? at hls
    split at hls
    · cases hls
    rename_i hunclosed
    obtain ⟨d', new, htokens, hdrafted⟩ := tokens_of_read (drafted_start d T) hls hread
    have hbraces := List.forall₂_nil_right_iff.1 hdrafted.around
    refine ⟨d'.append d'.current, ⟨(d'.append d'.current).ops, d'.ops.size⟩, ?_⟩
    unfold Draft.compile
    simp only [htokens, Draft.endError?, hunclosed, hbraces]

end StackLang.Tree

namespace StackLang.Draft

/-! ## Names in drafts -/

/-- The names of `d` keep their handles in `d'`, and had them whenever a block was laid out. -/
structure Grows (d d' : Draft) : Prop where
  kept : d.symbols.KeptBy d'.symbols
  distinct : d.symbols.Distinct → d'.symbols.Distinct
  layouts : ∀ l ∈ d'.layouts, l ∈ d.layouts ∨
    d.symbols.KeptBy l.symbols ∧ (d.symbols.Distinct → l.symbols.Distinct)

theorem Grows.refl (d : Draft) : d.Grows d := ⟨.refl _, id, fun _ hl => Or.inl hl⟩

theorem Grows.trans {d₁ d₂ d₃ : Draft} (h₁ : d₁.Grows d₂) (h₂ : d₂.Grows d₃) : d₁.Grows d₃ where
  kept := h₁.kept.trans h₂.kept
  distinct := h₂.distinct ∘ h₁.distinct
  layouts := by
    intro l hl
    rcases h₂.layouts l hl with hold | ⟨hkept, hdistinct⟩
    · exact h₁.layouts l hold
    · exact Or.inr ⟨h₁.kept.trans hkept, hdistinct ∘ h₁.distinct⟩

theorem append_grows (d : Draft) (block : Array Op) : d.Grows (d.append block) where
  kept := .refl _
  distinct := id
  layouts := by
    intro l hl
    rcases List.mem_cons.1 hl with rfl | hl
    · exact Or.inr ⟨.refl _, id⟩
    · exact Or.inl hl

theorem token_grows (d : Draft) (t : Token) : d.Grows (d.token t).1 := by
  cases hl : Tree.Lexeme.ofToken? t with
  | none =>
    obtain ⟨e, he⟩ := Tree.token_of_none hl d
    rw [he]
    exact .refl d
  | some l =>
    cases l with
    | opening =>
      rw [Tree.token_of_opening hl]
      exact ⟨.refl _, id, fun _ hl => Or.inl hl⟩
    | closing =>
      rw [Tree.token_of_closing hl]
      unfold closeBlock
      split
      · exact .refl d
      · rename_i brace braces _
        let around : Draft := { d with current := brace.before, braces }
        have haround : d.Grows (around.emit [.push (.code (.block d.ops.size))]) :=
          ⟨.refl _, id, fun _ hl => Or.inl hl⟩
        exact haround.trans (append_grows _ _)
    | atom a =>
      obtain ⟨symbols, code, htoken, hkept, hdistinct, -⟩ := Tree.token_of_atom hl d
      rw [htoken]
      exact ⟨hkept, hdistinct, fun _ hl => Or.inl hl⟩

theorem tokens_grows (d : Draft) (ts : List Token) : d.Grows (d.tokens ts).1 := by
  induction ts generalizing d with
  | nil => exact .refl d
  | cons t ts ih =>
    have htoken := token_grows d t
    rw [tokens]
    split
    · rename_i d' hd'
      rw [hd'] at htoken
      exact htoken.trans (ih d')
    · rename_i d' e hd'
      rwa [hd'] at htoken

/-- Compiling keeps all names, whether it succeeds or not. -/
theorem compile_grows (d : Draft) (src : Bytes) :
    ({ d with current := #[], braces := [], layouts := [] } : Draft).Grows (d.compile src).1 := by
  have htokens := tokens_grows { d with current := #[], braces := [], layouts := [] }
    (tokenize src).list
  unfold compile
  simp only
  split
  · rename_i d' e hd'
    rwa [hd'] at htokens
  · rename_i d' hd'
    rw [hd'] at htokens
    split
    · exact htokens
    · exact htokens.trans (append_grows _ _)

end StackLang.Draft
