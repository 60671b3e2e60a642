import Mathlib
import StackLang.Proofs.FirstFault

/-!
# Tokens that are refused

A draft can be given tokens from anywhere, and more of them when it has refused one. What it holds
in the end is what the accepted tokens alone make of it. The braces that are open are those among
the accepted tokens that have no counterpart, and there is a block for each of them and one more.

The last point is in the way that a draft is stored, where a brace comes with the block in front of
it. So it is also shown for blocks and positions on two stacks that nothing but their use keeps
together.

* `Token.unclosed`: the braces that are left open, in order.
* `Draft.feed`, `Draft.accepted`: taking tokens past those that are refused.
* `SplitDraft`: blocks and positions on a stack each.
* `Draft.split_token`: a token does the same to a draft and to the two stacks.
* `Draft.accepted_tokens_decide`: the accepted tokens decide what a draft holds.
-/

namespace StackLang

namespace Token

/-! ## Braces without a counterpart -/

theorem Leaves.depth_nonneg {ts opens front rest : List Token} (h : Leaves ts opens)
    (hts : ts = front ++ rest) : 0 ≤ depth front := by
  induction h generalizing front rest with
  | nil h => exact h.depth_nonneg hts
  | @cons before body opens o h ho hbody ih =>
    rcases List.append_eq_append_iff.1 hts with ⟨more, rfl, hmore⟩ | ⟨more, hbefore, -⟩
    · have hdepth := ih (List.append_nil before).symm
      rw [depth_append]
      rcases List.cons_eq_append_iff.1 hmore with ⟨rfl, -⟩ | ⟨more', rfl, heq⟩
      · simpa using hdepth
      · have hbehind := hbody.depth_nonneg heq
        rw [depth_cons, ho.weight_eq]
        omega
    · exact ih hbefore

/-- Either all closing braces have counterparts, or one closes a brace in front of the tokens. -/
theorem leaves_or_closedBy (ts : List Token) : (∃ opens, Leaves ts opens) ∨ ClosedBy ts := by
  induction ts using List.reverseRecOn with
  | nil => exact Or.inl ⟨[], .nil .nil⟩
  | append_singleton ts t ih =>
    rcases ih with ⟨opens, h⟩ | h
    · by_cases hopening : t.Opening
      · exact Or.inl ⟨t :: opens, .cons h hopening .nil⟩
      by_cases hclosing : t.Closing
      · cases h with
        | nil h => exact Or.inr ⟨ts, t, [], rfl, h, hclosing⟩
        | cons h ho hbody => exact Or.inl ⟨_, (Leaves.cons h ho hbody).close hclosing⟩
      · exact Or.inl ⟨opens, h.append (.other hopening hclosing .nil)⟩
    · exact Or.inr (h.append [t])

/-- A brace is closed as soon as more braces behind it are closed than opened. -/
theorem closedBy_iff_depth {ts : List Token} :
    ClosedBy ts ↔ ∃ front, front <+: ts ∧ depth front < 0 := by
  constructor
  · rintro ⟨body, c, rest, rfl, hbody, hc⟩
    refine ⟨body ++ [c], ⟨rest, by simp⟩, ?_⟩
    simp [hbody.depth_eq, hc.weight_eq]
  · rintro ⟨front, ⟨rest, hts⟩, hdepth⟩
    rcases leaves_or_closedBy ts with ⟨opens, h⟩ | h
    · have hnonneg := h.depth_nonneg hts.symm
      omega
    · exact h

instance (ts : List Token) : Decidable (ClosedBy ts) :=
  decidable_of_iff (∃ front ∈ ts.inits, depth front < 0) (by simp [closedBy_iff_depth])

/-- The opening braces that no token behind them closes, in order. -/
def unclosed : List Token → List Token
  | [] => []
  | t :: ts => if t.Opening ∧ ¬ ClosedBy ts then t :: unclosed ts else unclosed ts

theorem Leaves.not_closedBy {ts opens : List Token} (h : Leaves ts opens) : ¬ ClosedBy ts := by
  intro hclosed
  obtain ⟨front, ⟨rest, hts⟩, hdepth⟩ := closedBy_iff_depth.1 hclosed
  have hnonneg := h.depth_nonneg hts.symm
  omega

/-- What closes nothing in front of it makes no difference there. -/
theorem closedBy_append_iff {ts ts' : List Token} (h : ¬ ClosedBy ts') :
    ClosedBy (ts ++ ts') ↔ ClosedBy ts := by
  refine ⟨fun happend => ?_, fun hts => hts.append ts'⟩
  obtain ⟨front, ⟨rest, hsplit⟩, hdepth⟩ := closedBy_iff_depth.1 happend
  rcases List.append_eq_append_iff.1 hsplit with ⟨more, hts, -⟩ | ⟨more, rfl, hts'⟩
  · exact closedBy_iff_depth.2 ⟨front, ⟨more, hts.symm⟩, hdepth⟩
  · -- The second part does not get below where it starts, so the first one is below already.
    have hmore : ¬ depth more < 0 := fun hneg =>
      h (closedBy_iff_depth.2 ⟨more, ⟨rest, hts'.symm⟩, hneg⟩)
    rw [depth_append] at hdepth
    exact closedBy_iff_depth.2 ⟨ts, List.prefix_rfl, by omega⟩

theorem unclosed_append {ts ts' : List Token} (h : ¬ ClosedBy ts') :
    unclosed (ts ++ ts') = unclosed ts ++ unclosed ts' := by
  induction ts with
  | nil => rfl
  | cons t ts ih =>
    simp only [List.cons_append, unclosed, closedBy_append_iff h, ih]
    split <;> rfl

theorem mem_unclosed_iff {ts : List Token} {t : Token} :
    t ∈ unclosed ts ↔ ∃ front rest, ts = front ++ t :: rest ∧ t.Opening ∧ ¬ ClosedBy rest := by
  induction ts with
  | nil => simp [unclosed]
  | cons u ts ih =>
    have hcons : t ∈ unclosed (u :: ts) ↔
        (t = u ∧ u.Opening ∧ ¬ ClosedBy ts) ∨ t ∈ unclosed ts := by
      rw [unclosed]
      split <;> simp_all
    rw [hcons, ih]
    constructor
    · rintro (⟨rfl, h⟩ | ⟨front, rest, rfl, h⟩)
      · exact ⟨[], ts, rfl, h⟩
      · exact ⟨u :: front, rest, rfl, h⟩
    · rintro ⟨front, rest, hts, h⟩
      rcases List.cons_eq_append_iff.1 hts with ⟨-, heq⟩ | ⟨front', -, heq⟩
      · cases heq
        exact Or.inl ⟨rfl, h⟩
      · exact Or.inr ⟨front', rest, heq, h⟩

theorem Matched.unclosed_eq {ts : List Token} (h : Matched ts) : unclosed ts = [] := by
  rw [List.eq_nil_iff_forall_not_mem]
  intro t ht
  obtain ⟨front, rest, hts, hopening, hopen⟩ := mem_unclosed_iff.1 ht
  exact hopen (h.closedBy hts hopening)

/-- The open braces of a run of tokens are those that none of them closes. -/
theorem Leaves.unclosed_eq {ts opens : List Token} (h : Leaves ts opens) :
    unclosed ts = opens.reverse := by
  induction h with
  | nil h => exact h.unclosed_eq
  | @cons before body opens o h ho hbody ih =>
    have hopen : ¬ ClosedBy (o :: body) := (Leaves.cons (.nil .nil) ho hbody).not_closedBy
    rw [unclosed_append hopen, ih, unclosed, if_pos ⟨ho, hbody.not_closedBy⟩, hbody.unclosed_eq,
      List.reverse_cons]

end Token

namespace Draft

/-! ## What a token does -/

theorem token_opening {t : Token} (h : t.Opening) (d : Draft) :
    d.token t = (d.openBlock t.position, none) := by
  simp [token, word, h.1, h.2]

theorem token_closing {t : Token} (h : t.Closing) (d : Draft) :
    d.token t = d.closeBlock t.position := by
  have hne : lit "\x7d" ≠ lit "\x7b" := by decide
  simp [token, word, h.1, h.2, hne]

/-- A token that is no brace looks at nothing but the names and the innermost block. -/
theorem token_plain {t : Token} (hopening : ¬ t.Opening) (hclosing : ¬ t.Closing) (d : Draft) :
    d.token t =
      let (d', e) := ({ symbols := d.symbols, current := d.current } : Draft).token t
      ({ d with symbols := d'.symbols, current := d'.current }, e) := by
  obtain ⟨kind, text, p⟩ := t
  cases kind with
  | number =>
    simp only [token]
    cases Decimal.int64? text with
    | none => rfl
    | some n => rfl
  | string => rfl
  | symbol => rfl
  | word =>
    have hopen : text ≠ lit "\x7b" := fun htext => hopening ⟨rfl, htext⟩
    have hclose : text ≠ lit "\x7d" := fun htext => hclosing ⟨rfl, htext⟩
    simp only [token, word, if_neg hopen, if_neg hclose]
    by_cases hloop : text = lit "while"
    · rw [if_pos hloop, if_pos hloop]
      rfl
    · rw [if_neg hloop, if_neg hloop]
      cases reserved.lookup text with
      | some code => rfl
      | none => rfl
  | other tag => rfl

theorem token_refused {d : Draft} {t : Token} {e : ParseError} (h : (d.token t).2 = some e) :
    (d.token t).1 = d := by
  rcases d.token_check t with ⟨d', htoken, -⟩ | ⟨e', htoken, -⟩
  · rw [htoken] at h
    cases h
  · rw [htoken]

/-- Behind a token that is accepted, the braces are open that the tokens up to there leave open. -/
theorem token_leaves {d d' : Draft} {before opens : List Token} {t : Token}
    (h : Token.Leaves before opens) (hd : d.positions = opens.map Token.position)
    (htoken : d.token t = (d', none)) :
    ∃ opens', Token.Leaves (before ++ [t]) opens' ∧
      d'.positions = opens'.map Token.position := by
  by_cases hopening : t.Opening
  · rw [token_opening hopening] at htoken
    cases htoken
    exact ⟨t :: opens, .cons h hopening .nil, congrArg (t.position :: ·) hd⟩
  by_cases hclosing : t.Closing
  · rw [token_closing hclosing] at htoken
    rcases d.closeBlock_check t.position with ⟨-, hclose⟩ | ⟨q, d'', hpositions, hclose⟩
    · cases htoken.symm.trans hclose
    cases htoken.symm.trans hclose
    rw [hd] at hpositions
    -- A block could be closed, so there is a brace that the token is the counterpart of.
    cases opens with
    | nil => cases hpositions
    | cons o opens => exact ⟨opens, h.close hclosing, (List.cons.inj hpositions).2.symm⟩
  · rw [token_plain hopening hclosing, Prod.mk.injEq] at htoken
    obtain ⟨rfl, -⟩ := htoken
    exact ⟨opens, h.append (.other hopening hclosing .nil), hd⟩

/-! ## Taking what is not refused -/

/-- Take tokens one after another, also behind one that is refused. -/
def feed (d : Draft) : List Token → Draft
  | [] => d
  | t :: ts => (d.token t).1.feed ts

/-- The tokens that are not refused. -/
def accepted (d : Draft) : List Token → List Token
  | [] => []
  | t :: ts =>
    if (d.token t).2 = none then t :: (d.token t).1.accepted ts else (d.token t).1.accepted ts

/-- A token is accepted, or else the rest is fed to the same draft. -/
theorem feed_cons (d : Draft) (t : Token) (ts : List Token) :
    (∃ d', d.token t = (d', none) ∧ d.feed (t :: ts) = d'.feed ts ∧
      d.accepted (t :: ts) = t :: d'.accepted ts) ∨
    ∃ e, d.token t = (d, some e) ∧ d.feed (t :: ts) = d.feed ts ∧
      d.accepted (t :: ts) = d.accepted ts := by
  rw [feed, accepted]
  rcases d.token_check t with ⟨d', htoken, -⟩ | ⟨e, htoken, -⟩
  · rw [htoken]
    exact Or.inl ⟨d', rfl, rfl, rfl⟩
  · rw [htoken]
    exact Or.inr ⟨e, rfl, rfl, rfl⟩

/-- On their own, the accepted tokens are accepted again, and they lead to the same draft. -/
theorem tokens_accepted (d : Draft) (ts : List Token) :
    d.tokens (d.accepted ts) = (d.feed ts, none) := by
  induction ts generalizing d with
  | nil => rfl
  | cons t ts ih =>
    rcases d.feed_cons t ts with ⟨d', htoken, hfeed, haccepted⟩ | ⟨e, -, hfeed, haccepted⟩
    · rw [hfeed, haccepted, tokens, htoken]
      exact ih d'
    · rw [hfeed, haccepted, ih d]

theorem accepted_sublist (d : Draft) (ts : List Token) : (d.accepted ts).Sublist ts := by
  induction ts generalizing d with
  | nil => exact .slnil
  | cons t ts ih =>
    rcases d.feed_cons t ts with ⟨d', -, -, haccepted⟩ | ⟨e, -, -, haccepted⟩
    · rw [haccepted]
      exact (ih d').cons_cons t
    · rw [haccepted]
      exact (ih d).cons t

theorem feed_of_tokens {d d' : Draft} {ts : List Token} (h : d.tokens ts = (d', none)) :
    d.feed ts = d' := by
  induction ts generalizing d with
  | nil => exact congrArg Prod.fst h
  | cons t ts ih =>
    rw [tokens] at h
    rw [feed]
    rcases htoken : d.token t with ⟨d₁, _ | e⟩
    · rw [htoken] at h
      exact ih h
    · rw [htoken] at h
      cases h

/-- The open braces of a draft are those that the accepted tokens leave open. -/
theorem feed_leaves {d : Draft} {before opens : List Token} (h : Token.Leaves before opens)
    (hd : d.positions = opens.map Token.position) (ts : List Token) :
    ∃ opens', Token.Leaves (before ++ d.accepted ts) opens' ∧
      (d.feed ts).positions = opens'.map Token.position := by
  induction ts generalizing d before opens with
  | nil => exact ⟨opens, by rwa [accepted, List.append_nil], hd⟩
  | cons t ts ih =>
    rcases d.feed_cons t ts with ⟨d', htoken, hfeed, haccepted⟩ | ⟨e, -, hfeed, haccepted⟩
    · obtain ⟨opens', hleaves, hpositions⟩ := token_leaves h hd htoken
      rw [hfeed, haccepted, List.append_cons]
      exact ih hleaves hpositions
    · rw [hfeed, haccepted]
      exact ih h hd

theorem length_blocks (d : Draft) : d.blocks.length = d.opens.length + 1 := by
  simp [blocks, opens]

end Draft

/-! ## Two stacks -/

/-- A draft with its open blocks on one stack and the positions of its open braces on another, both
outermost first. -/
structure SplitDraft where
  symbols : Registry
  ops : Array Op
  blocks : List (Array Op)
  opens : List Position

namespace SplitDraft

/-- The stacks with one more block and the position of its brace. -/
def push (s : SplitDraft) (block : Array Op) (p : Position) : SplitDraft :=
  { s with blocks := s.blocks ++ [block], opens := s.opens ++ [p] }

/-- Emit code into the innermost block, if there is one. -/
def emit (s : SplitDraft) (code : List Op) : Option SplitDraft :=
  s.blocks.getLast?.map fun block =>
    let block : Array Op := block ++ code
    { s with blocks := s.blocks.dropLast ++ [block] }

/-- Close the innermost block. How many positions stay is told from the number of blocks, and there
is no result if there are not that many. -/
def closeBlock (s : SplitDraft) (p : Position) : Option (SplitDraft × Option ParseError) :=
  s.blocks.getLast?.bind fun block =>
    let i := s.blocks.length - 1
    if i = 0 then some (s, some ⟨p, .unmatchedClose⟩)
    else if s.opens.length < i - 1 then none
    else
      let closed : SplitDraft :=
        { s with
          ops := s.ops ++ (block.push .ret).map (Op.relocate s.ops.size)
          blocks := s.blocks.take i
          opens := s.opens.take (i - 1) }
      (closed.emit [.push (.code (.block s.ops.size))]).map fun s => (s, none)

/-- A token that is no brace is taken as by a draft that has the innermost block only. -/
def plain (s : SplitDraft) (t : Token) : Option (SplitDraft × Option ParseError) :=
  s.blocks.getLast?.map fun block =>
    let (d, e) := ({ symbols := s.symbols, current := block } : Draft).token t
    ({ s with symbols := d.symbols, blocks := s.blocks.dropLast ++ [d.current] }, e)

/-- Take a token. There is no result for a symbol that lacks its colon, nor if a stack is shorter
than it is taken to be. -/
def token (s : SplitDraft) (t : Token) : Option (SplitDraft × Option ParseError) :=
  if t.isHollow then none
  else if t.Opening then some (s.push #[] t.position, none)
  else if t.Closing then s.closeBlock t.position
  else s.plain t

/-- Take tokens one after another, also behind one that is refused. -/
def feed (s : SplitDraft) : List Token → Option SplitDraft
  | [] => some s
  | t :: ts => (s.token t).bind fun result => result.1.feed ts

/-- With a position for each block but one, closing a block takes its own position away. -/
theorem closeBlock_concat (s : SplitDraft) (h : s.blocks.length = s.opens.length + 1)
    (block : Array Op) (q p : Position) :
    (s.push block q).closeBlock p =
      (emit { s with ops := s.ops ++ (block.push .ret).map (Op.relocate s.ops.size) }
        [.push (.code (.block s.ops.size))]).map fun s => (s, none) := by
  have hblocks : (s.blocks ++ [block]).take (s.opens.length + 1) = s.blocks := List.take_left' h
  have hopens : (s.opens ++ [q]).take s.opens.length = s.opens := List.take_left
  simp only [push, closeBlock, List.getLast?_concat, Option.bind_some, List.length_append,
    List.length_singleton, Nat.add_sub_cancel, h, hblocks, hopens]
  rw [if_neg (Nat.succ_ne_zero _), if_neg (by omega)]

end SplitDraft

namespace Draft

def split (d : Draft) : SplitDraft := ⟨d.symbols, d.ops, d.blocks, d.opens⟩

theorem blocks_eq (d : Draft) : d.blocks = (d.braces.map OpenBrace.before).reverse ++ [d.current] :=
  List.reverse_cons

theorem split_openBlock (d : Draft) (p : Position) :
    (d.openBlock p).split = d.split.push #[] p := by
  simp [split, SplitDraft.push, blocks, opens, openBlock]

theorem split_emit (d : Draft) (code : List Op) :
    d.split.emit code = some (d.emit code).split := by
  simp [SplitDraft.emit, split, blocks_eq, opens, emit]

theorem split_closeBlock (d : Draft) (p : Position) :
    d.split.closeBlock p = some ((d.closeBlock p).1.split, (d.closeBlock p).2) := by
  cases hbraces : d.braces with
  | nil => simp [SplitDraft.closeBlock, closeBlock, split, blocks_eq, hbraces]
  | cons brace braces =>
    let around : Draft := { d with current := brace.before, braces }
    have hsplit : d.split = around.split.push d.current brace.position := by
      simp [split, SplitDraft.push, around, blocks, opens, hbraces]
    -- A draft emits the reference before the block is finished, and the stacks do so afterwards.
    have hemit := split_emit (around.append (d.current.push .ret))
      [.push (.code (.block d.ops.size))]
    rw [hsplit, around.split.closeBlock_concat around.length_blocks, closeBlock, hbraces]
    exact congrArg (Option.map fun s => (s, none)) hemit

theorem split_plain {t : Token} (hopening : ¬ t.Opening) (hclosing : ¬ t.Closing) (d : Draft) :
    d.split.plain t = some ((d.token t).1.split, (d.token t).2) := by
  rw [token_plain hopening hclosing d]
  simp [SplitDraft.plain, split, blocks_eq, opens]

/-- A token does the same to a draft and to the two stacks. -/
theorem split_token {t : Token} (h : t.isHollow = false) (d : Draft) :
    d.split.token t = some ((d.token t).1.split, (d.token t).2) := by
  rw [SplitDraft.token, h, if_neg Bool.false_ne_true]
  by_cases hopening : t.Opening
  · rw [if_pos hopening, token_opening hopening, split_openBlock]
  rw [if_neg hopening]
  by_cases hclosing : t.Closing
  · rw [if_pos hclosing, token_closing hclosing, split_closeBlock]
  · rw [if_neg hclosing, split_plain hopening hclosing]

theorem split_feed {ts : List Token} (h : ∀ t ∈ ts, t.isHollow = false) (d : Draft) :
    d.split.feed ts = some (d.feed ts).split := by
  induction ts generalizing d with
  | nil => rfl
  | cons t ts ih =>
    obtain ⟨ht, hts⟩ := List.forall_mem_cons.1 h
    rw [SplitDraft.feed, split_token ht, feed]
    exact ih hts _

/-- Feed any tokens to a draft that has one empty block, on top of any names and code. Whether or
not some are refused, there is then one more open block than there are positions of open braces, and
the positions are those of the accepted braces that no accepted token closes, outermost first. The
accepted tokens alone are all accepted again and lead to the same draft, and a token that is refused
next leaves it as it is. Blocks and positions that are kept on two stacks become the same, with all
tokens as with those that are accepted, and neither stack is ever too short. -/
theorem accepted_tokens_decide (symbols : Registry) (ops : Array Op) {ts : List Token}
    (h : ∀ t ∈ ts, t.isHollow = false) :
    let start : Draft := { symbols, ops }
    let d := start.feed ts
    let accepted := start.accepted ts
    d.blocks.length = d.opens.length + 1 ∧
      d.opens = (Token.unclosed accepted).map Token.position ∧
      start.feed accepted = d ∧ start.tokens accepted = (d, none) ∧
      (∀ t e, (d.token t).2 = some e → (d.token t).1 = d) ∧
      SplitDraft.feed ⟨symbols, ops, [#[]], []⟩ ts = some ⟨d.symbols, d.ops, d.blocks, d.opens⟩ ∧
      SplitDraft.feed ⟨symbols, ops, [#[]], []⟩ accepted =
        some ⟨d.symbols, d.ops, d.blocks, d.opens⟩ := by
  intro start d accepted
  have htokens : start.tokens accepted = (d, none) := start.tokens_accepted ts
  have hfeed : start.feed accepted = d := feed_of_tokens htokens
  have haccepted : ∀ t ∈ accepted, t.isHollow = false := fun t ht =>
    h t ((start.accepted_sublist ts).subset ht)
  have hopens : d.opens = (Token.unclosed accepted).map Token.position := by
    obtain ⟨opens, hleaves, hpositions⟩ := feed_leaves (d := start) (.nil .nil) rfl ts
    rw [List.nil_append] at hleaves
    rw [hleaves.unclosed_eq, List.map_reverse, ← hpositions]
    rfl
  have hsplit : start.split.feed accepted = some d.split := by
    rw [split_feed haccepted, hfeed]
  exact ⟨d.length_blocks, hopens, hfeed, htokens, fun t e => token_refused, split_feed h start,
    hsplit⟩

/-- A brace that closes nothing, a number that is none and a token of no class are refused between
others. Of three braces that are opened, the second one is closed. -/
theorem accepted_tokens_decide_mixed :
    let start : Draft := {}
    let accepted : List Token :=
      [⟨.word, lit "\x7b", ⟨2, 1, 3⟩⟩, ⟨.number, lit "1", ⟨4, 1, 5⟩⟩,
        ⟨.word, lit "\x7b", ⟨9, 1, 10⟩⟩, ⟨.word, lit "while", ⟨11, 1, 12⟩⟩,
        ⟨.word, lit "\x7d", ⟨17, 2, 1⟩⟩, ⟨.symbol, lit ":a", ⟨19, 2, 3⟩⟩,
        ⟨.word, lit "\x7b", ⟨22, 2, 6⟩⟩]
    let ts : List Token :=
      ⟨.word, lit "\x7d", ⟨0, 1, 1⟩⟩ :: accepted.take 2 ++
        ⟨.number, lit "1x", ⟨6, 1, 7⟩⟩ :: (accepted.drop 2).take 3 ++
        ⟨.other 9, [], ⟨-1, 0, 7⟩⟩ :: accepted.drop 5
    (∀ t ∈ ts, t.isHollow = false) ∧ start.accepted ts = accepted ∧
      (start.feed ts).blocks.length = 3 ∧ (start.feed ts).opens = [⟨2, 1, 3⟩, ⟨22, 2, 6⟩] ∧
      start.feed accepted = start.feed ts := by
  intro start accepted ts
  have hsolid : ∀ t ∈ ts, t.isHollow = false := by decide +kernel
  have haccepted : start.accepted ts = accepted := by cbv
  have hunclosed : (Token.unclosed accepted).map Token.position = [⟨2, 1, 3⟩, ⟨22, 2, 6⟩] := by
    decide +kernel
  obtain ⟨hblocks, hopens, hfeed, -⟩ := accepted_tokens_decide {} #[] hsolid
  rw [haccepted] at hopens hfeed
  rw [hopens, hunclosed] at hblocks
  exact ⟨hsolid, haccepted, hblocks, hopens.trans hunclosed, hfeed⟩

end Draft

end StackLang
