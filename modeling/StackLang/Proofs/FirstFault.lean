import Mathlib
import StackLang.Proofs.Completion
import StackLang.Proofs.Spans

/-!
# The first fault of a source

Which sources compile, and what is wrong with the others, in terms of the tokens alone: numbers that
are none or too large, braces without their counterparts, and a string that is not closed. Braces
belong together if they match in what is between them.

* `Decimal.Fits`: the digits of a number that is not too large.
* `Token.Matched`: tokens whose braces all have counterparts.
* `Token.Faulty`: a token that has a fault behind those in front of it.
* `Tokens.Accepted`, `Tokens.FirstFault`: nothing is wrong with the tokens of a source, or what is
  wrong first.
* `Draft.compile_first_fault`: sources compile if nothing is wrong, and else fail for what is wrong
  first.
-/

namespace StackLang

/-! ## Numbers -/

/-- Decimal digits, of a value that a signed word can hold. -/
def Decimal.Fits (s : Bytes) : Prop := (∀ b ∈ s, Byte.isDigit b = true) ∧ value s ≤ 2 ^ 63 - 1

theorem Decimal.int64?_eq_none_iff {d : UInt8} {s : Bytes} (hd : Byte.isDigit d = true) :
    int64? (d :: s) = none ↔ ¬ Fits (d :: s) := by
  have hminus := Token.digit_ne (b := Byte.minus) hd (by decide)
  have hplus := Token.digit_ne (b := Byte.plus) hd (by decide)
  have hunsigned : int64? (d :: s) = int64?.unsigned (d :: s) := by
    unfold int64?
    split
    · rename_i heq
      exact absurd (List.cons.inj heq).1 hminus
    · rename_i heq
      exact absurd (List.cons.inj heq).1 hplus
    · rfl
  have hword : (value (d :: s) ≤ 2 ^ 63 - 1) ↔ value (d :: s) < 0x8000000000000000 := by omega
  rw [hunsigned, int64?.unsigned, nat?, Fits, hword, ← List.all_eq_true]
  by_cases hall : (d :: s).all Byte.isDigit = true
  · simp [hall]
  · simp [hall]

/-! ## Places in a list -/

/-- A place in one list and another behind it is in the one or the other. -/
theorem append_eq_split {α : Type} {xs ys front rest : List α} {a : α}
    (h : xs ++ ys = front ++ a :: rest) :
    (∃ more, xs = front ++ a :: more ∧ rest = more ++ ys) ∨
      ∃ more, front = xs ++ more ∧ ys = more ++ a :: rest := by
  rcases List.append_eq_append_iff.1 h with ⟨more, hfront, hys⟩ | ⟨more, hxs, hrest⟩
  · exact Or.inr ⟨more, hfront, hys⟩
  · rcases List.cons_eq_append_iff.1 hrest with ⟨rfl, hys⟩ | ⟨more', rfl, hrest'⟩
    · exact Or.inr ⟨[], by simpa using hxs.symm, hys⟩
    · exact Or.inl ⟨more', hxs, hrest'⟩

/-- Of two places in a list, one is before the other if they are not the same. -/
theorem places_of_eq {α : Type} {front front' rest rest' : List α} {a a' : α}
    (h : front ++ a :: rest = front' ++ a' :: rest') :
    (front = front' ∧ a = a') ∨
      (∃ more, front = front' ++ a' :: more ∧ rest' = more ++ a :: rest) ∨
      ∃ more, front' = front ++ a :: more ∧ rest = more ++ a' :: rest' := by
  rcases append_eq_split h with hbehind | ⟨more, hfront, hrest⟩
  · exact Or.inr (Or.inl hbehind)
  · rcases List.cons_eq_append_iff.1 hrest with ⟨rfl, hsame⟩ | ⟨more', rfl, hrest'⟩
    · rw [List.append_nil] at hfront
      exact Or.inl ⟨hfront.symm, (List.cons.inj hsame).1.symm⟩
    · exact Or.inr (Or.inr ⟨more', hfront, hrest'⟩)

namespace Token

/-! ## Braces -/

theorem Opening.not_closing {t : Token} (h : t.Opening) : ¬ t.Closing := by
  rintro ⟨-, htext⟩
  have hsame := h.2.symm.trans htext
  exact absurd hsame (by decide)

/-- Tokens whose braces all have counterparts. -/
inductive Matched : List Token → Prop
  | nil : Matched []
  | other {t : Token} {ts : List Token} (hopening : ¬ t.Opening) (hclosing : ¬ t.Closing)
    (h : Matched ts) : Matched (t :: ts)
  | block {o c : Token} {body rest : List Token} (ho : o.Opening) (hbody : Matched body)
    (hc : c.Closing) (hrest : Matched rest) : Matched (o :: (body ++ c :: rest))

/-- Behind these tokens, a brace is open. -/
def OpenBehind (before : List Token) : Prop :=
  ∃ front o body, before = front ++ o :: body ∧ o.Opening ∧ Matched body

/-- A brace that is open in front of these tokens is closed by one of them. -/
def ClosedBy (after : List Token) : Prop :=
  ∃ body c rest, after = body ++ c :: rest ∧ Matched body ∧ c.Closing

theorem Matched.append {ts ts' : List Token} (h : Matched ts) (h' : Matched ts') :
    Matched (ts ++ ts') := by
  induction h with
  | nil => exact h'
  | other hopening hclosing _ ih => exact .other hopening hclosing ih
  | block ho hbody hc _ _ ih =>
    rw [List.cons_append, List.append_assoc]
    exact .block ho hbody hc ih

theorem ClosedBy.append {ts : List Token} (h : ClosedBy ts) (ts' : List Token) :
    ClosedBy (ts ++ ts') := by
  obtain ⟨body, c, rest, rfl, hbody, hc⟩ := h
  exact ⟨body, c, rest ++ ts', by simp, hbody, hc⟩

/-- A brace that is open in matched tokens is closed in them. -/
theorem Matched.closedBy {ts front rest : List Token} {o : Token} (h : Matched ts)
    (hts : ts = front ++ o :: rest) (ho : o.Opening) : ClosedBy rest := by
  induction h generalizing front rest with
  | nil => simp at hts
  | other hopening _ _ ih =>
    rcases List.cons_eq_append_iff.1 hts with ⟨-, heq⟩ | ⟨front', -, heq⟩
    · cases heq
      exact absurd ho hopening
    · exact ih heq
  | @block o' c body rest' _ hbody hc _ ihbody ihrest =>
    rcases List.cons_eq_append_iff.1 hts with ⟨-, heq⟩ | ⟨front', -, heq⟩
    · cases heq
      exact ⟨body, c, rest', rfl, hbody, hc⟩
    -- The brace is within the block, or behind it; it cannot be the one that closes the block.
    rcases append_eq_split heq with ⟨more, hmore, rfl⟩ | ⟨more, -, heq'⟩
    · exact (ihbody hmore).append _
    · rcases List.cons_eq_append_iff.1 heq' with ⟨-, heq''⟩ | ⟨more', -, heq''⟩
      · cases heq''
        exact absurd hc ho.not_closing
      · exact ihrest heq''

/-- What a token adds to the number of open braces. -/
def weight (t : Token) : Int := if t.Opening then 1 else if t.Closing then -1 else 0

/-- The number of braces that are opened, less that of those that are closed. -/
def depth (ts : List Token) : Int := (ts.map weight).sum

@[simp]
theorem depth_nil : depth [] = 0 := rfl

@[simp]
theorem depth_cons (t : Token) (ts : List Token) : depth (t :: ts) = t.weight + depth ts := by
  simp [depth]

@[simp]
theorem depth_append (ts ts' : List Token) : depth (ts ++ ts') = depth ts + depth ts' := by
  simp [depth]

theorem Opening.weight_eq {t : Token} (h : t.Opening) : t.weight = 1 := if_pos h

theorem Closing.weight_eq {t : Token} (h : t.Closing) : t.weight = -1 := by
  have hopening : ¬ t.Opening := fun ho => ho.not_closing h
  rw [weight, if_neg hopening, if_pos h]

theorem weight_of_not {t : Token} (hopening : ¬ t.Opening) (hclosing : ¬ t.Closing) :
    t.weight = 0 := by
  rw [weight, if_neg hopening, if_neg hclosing]

theorem Matched.depth_eq {ts : List Token} (h : Matched ts) : depth ts = 0 := by
  induction h with
  | nil => rfl
  | other hopening hclosing _ ih => rw [depth_cons, weight_of_not hopening hclosing, ih, zero_add]
  | block ho _ hc _ ihbody ihrest =>
    rw [depth_cons, depth_append, depth_cons, ho.weight_eq, hc.weight_eq, ihbody, ihrest]
    rfl

/-- No more braces are closed than were opened before. -/
theorem Matched.depth_nonneg {ts front rest : List Token} (h : Matched ts)
    (hts : ts = front ++ rest) : 0 ≤ depth front := by
  induction h generalizing front rest with
  | nil =>
    obtain ⟨rfl, -⟩ := List.append_eq_nil_iff.1 hts.symm
    rfl
  | other hopening hclosing _ ih =>
    rcases List.cons_eq_append_iff.1 hts with ⟨rfl, -⟩ | ⟨front', rfl, heq⟩
    · exact le_rfl
    · rw [depth_cons, weight_of_not hopening hclosing, zero_add]
      exact ih heq
  | block ho hbody hc _ ihbody ihrest =>
    rcases List.cons_eq_append_iff.1 hts with ⟨rfl, -⟩ | ⟨front', rfl, heq⟩
    · exact le_rfl
    rw [depth_cons, ho.weight_eq]
    rcases List.append_eq_append_iff.1 heq with ⟨more, rfl, heq'⟩ | ⟨more, hmore, -⟩
    · rw [depth_append, hbody.depth_eq]
      rcases List.cons_eq_append_iff.1 heq' with ⟨rfl, -⟩ | ⟨more', rfl, heq''⟩
      · simp
      · have hdepth := ihrest heq''
        rw [depth_cons, hc.weight_eq]
        omega
    · have hdepth := ihbody hmore
      omega

theorem Matched.not_closedBy {ts : List Token} (h : Matched ts) : ¬ ClosedBy ts := by
  rintro ⟨body, c, rest, hts, hbody, hc⟩
  rw [← List.singleton_append, ← List.append_assoc] at hts
  have hdepth := h.depth_nonneg hts
  simp [hbody.depth_eq, hc.weight_eq] at hdepth

theorem Matched.not_openBehind {ts : List Token} (h : Matched ts) : ¬ OpenBehind ts := by
  rintro ⟨front, o, body, rfl, ho, hbody⟩
  have hfront := h.depth_nonneg rfl
  have hall := h.depth_eq
  rw [depth_append, depth_cons, ho.weight_eq, hbody.depth_eq] at hall
  omega

/-- Behind the tokens, the braces `opens` are open, innermost first. -/
inductive Leaves : List Token → (opens : List Token) → Prop
  | nil {ts : List Token} (h : Matched ts) : Leaves ts []
  | cons {before body opens : List Token} {o : Token} (h : Leaves before opens) (ho : o.Opening)
    (hbody : Matched body) : Leaves (before ++ o :: body) (o :: opens)

theorem Leaves.append {ts opens ts' : List Token} (h : Leaves ts opens) (h' : Matched ts') :
    Leaves (ts ++ ts') opens := by
  cases h with
  | nil h => exact .nil (h.append h')
  | cons h ho hbody =>
    rw [List.append_assoc, List.cons_append]
    exact .cons h ho (hbody.append h')

theorem Leaves.close {ts opens : List Token} {o c : Token} (h : Leaves ts (o :: opens))
    (hc : c.Closing) : Leaves (ts ++ [c]) opens := by
  cases h with
  | cons h ho hbody =>
    rw [List.append_assoc]
    exact h.append (.block ho hbody hc .nil)

/-! ## Faults of tokens -/

/-- The token `t` has a fault, behind the tokens `before`. -/
inductive Faulty (before : List Token) (t : Token) : ParseCause → Prop
  | number (hkind : t.kind = .number) (h : ¬ Decimal.Fits t.text) :
    Faulty before t (.invalidNumber t.text)
  | closing (hclosing : t.Closing) (h : ¬ OpenBehind before) : Faulty before t .unmatchedClose

/-- No token has a fault. -/
def Faultless (ts : List Token) : Prop :=
  ∀ before t after, ts = before ++ t :: after → ∀ cause, ¬ Faulty before t cause

theorem Faultless.concat {ts : List Token} {t : Token} (h : Faultless ts)
    (ht : ∀ cause, ¬ Faulty ts t cause) : Faultless (ts ++ [t]) := by
  intro before u after heq
  rcases append_eq_split heq with ⟨more, hts, -⟩ | ⟨more, rfl, hlast⟩
  · exact h before u more hts
  · rcases List.cons_eq_append_iff.1 hlast with ⟨rfl, hu⟩ | ⟨more', -, hnil⟩
    · cases hu
      rw [List.append_nil]
      exact ht
    · simp at hnil

theorem Faultless.numbers {ts : List Token} (h : Faultless ts) :
    ∀ t ∈ ts, t.kind = .number → Decimal.Fits t.text := by
  intro t ht hkind
  obtain ⟨before, after, heq⟩ := List.append_of_mem ht
  by_contra hbad
  exact h before t after heq _ (.number hkind hbad)

theorem Faultless.closings {ts : List Token} (h : Faultless ts) :
    ∀ before t after, ts = before ++ t :: after → t.Closing → OpenBehind before := by
  intro before t after heq hclosing
  by_contra hnone
  exact h before t after heq _ (.closing hclosing hnone)

theorem Faulty.unique {before : List Token} {t : Token} {cause cause' : ParseCause}
    (h : t.Faulty before cause) (h' : t.Faulty before cause') : cause = cause' := by
  cases h with
  | number hkind =>
    cases h' with
    | number => rfl
    | closing hclosing => cases hkind.symm.trans hclosing.1
  | closing hclosing =>
    cases h' with
    | number hkind => cases hkind.symm.trans hclosing.1
    | closing => rfl

/-! ## Checking tokens -/

theorem check_opening {t : Token} (h : t.Opening) (opens : List Position) :
    t.check opens = .ok (t.position :: opens) := by
  simp [check, h.1, h.2]

theorem check_closing {t : Token} (h : t.Closing) (p : Position) (opens : List Position) :
    t.check [] = .error ⟨t.position, .unmatchedClose⟩ ∧ t.check (p :: opens) = .ok opens := by
  have hne : lit "\x7d" ≠ lit "\x7b" := by decide
  simp [check, h.1, h.2, hne]

theorem check_number {t : Token} (ht : Spells t.kind t.text) (hkind : t.kind = .number)
    (opens : List Position) :
    (Decimal.Fits t.text ∧ t.check opens = .ok opens) ∨
      ¬ Decimal.Fits t.text ∧ t.check opens = .error ⟨t.position, .invalidNumber t.text⟩ := by
  obtain ⟨d, s, htext, hd⟩ : ∃ d s, t.text = d :: s ∧ Byte.isDigit d = true := by
    rw [hkind] at ht
    generalize t.text = text at ht
    cases ht with
    | @number d s hd hs => exact ⟨d, s, rfl, hd⟩
  have hiff := Decimal.int64?_eq_none_iff (s := s) hd
  rw [← htext] at hiff
  unfold check
  rw [hkind]
  simp only
  cases hnumber : Decimal.int64? t.text with
  | none => exact Or.inr ⟨hiff.1 hnumber, rfl⟩
  | some n =>
    refine Or.inl ⟨?_, rfl⟩
    by_contra hbad
    rw [hiff.2 hbad] at hnumber
    cases hnumber

theorem check_other {t : Token} (ht : Spells t.kind t.text) (hnumber : t.kind ≠ .number)
    (hopening : ¬ t.Opening) (hclosing : ¬ t.Closing) (opens : List Position) :
    t.check opens = .ok opens := by
  unfold check
  generalize hkind : t.kind = kind at ht hnumber
  cases kind with
  | number => exact absurd rfl hnumber
  | string => rfl
  | symbol => rfl
  | word =>
    have hopen : t.text ≠ lit "\x7b" := fun htext => hopening ⟨hkind, htext⟩
    have hclose : t.text ≠ lit "\x7d" := fun htext => hclosing ⟨hkind, htext⟩
    simp only [if_neg hopen, if_neg hclose]
  | other tag => cases ht

/-- A token is taken exactly if it has no fault, and the open braces are then those that it
leaves. -/
theorem check_step {before opens : List Token} {t : Token} (ht : Spells t.kind t.text)
    (h : Leaves before opens) :
    (∃ opens', Leaves (before ++ [t]) opens' ∧ (∀ cause, ¬ Faulty before t cause) ∧
      t.check (opens.map Token.position) = .ok (opens'.map Token.position)) ∨
    ∃ cause, Faulty before t cause ∧
      t.check (opens.map Token.position) = .error ⟨t.position, cause⟩ := by
  by_cases hopening : t.Opening
  · refine Or.inl ⟨t :: opens, .cons h hopening .nil, ?_, check_opening hopening _⟩
    rintro cause (⟨hkind, -⟩ | ⟨hclosing, -⟩)
    · cases hopening.1.symm.trans hkind
    · exact hopening.not_closing hclosing
  by_cases hclosing : t.Closing
  · cases opens with
    | nil =>
      cases h with
      | nil h =>
        exact Or.inr ⟨_, .closing hclosing h.not_openBehind, (check_closing hclosing t.position []).1⟩
    | cons o opens =>
      refine Or.inl ⟨opens, h.close hclosing, ?_, (check_closing hclosing _ _).2⟩
      rintro cause (⟨hkind, -⟩ | ⟨-, hnone⟩)
      · cases hclosing.1.symm.trans hkind
      · cases h with
        | cons h ho hbody => exact hnone ⟨_, o, _, rfl, ho, hbody⟩
  -- All other tokens leave the open braces as they are.
  have hleaves := h.append (.other hopening hclosing .nil)
  by_cases hkind : t.kind = .number
  · rcases check_number ht hkind (opens.map Token.position) with ⟨hfits, hok⟩ | ⟨hbad, herror⟩
    · refine Or.inl ⟨opens, hleaves, ?_, hok⟩
      rintro cause (⟨-, hbad⟩ | ⟨hcontra, -⟩)
      · exact hbad hfits
      · exact hclosing hcontra
    · exact Or.inr ⟨_, .number hkind hbad, herror⟩
  · refine Or.inl ⟨opens, hleaves, ?_, check_other ht hkind hopening hclosing _⟩
    rintro cause (⟨hnumber, -⟩ | ⟨hcontra, -⟩)
    · exact hkind hnumber
    · exact hclosing hcontra

/-- Tokens are taken up to the first one that has a fault. -/
theorem check_run {before opens ts : List Token} (hts : ∀ t ∈ ts, Spells t.kind t.text)
    (h : Leaves before opens) (hfaultless : Faultless before) :
    (∃ opens', Leaves (before ++ ts) opens' ∧ Faultless (before ++ ts) ∧
      ts.foldlM check (opens.map Token.position) = .ok (opens'.map Token.position)) ∨
    ∃ front t rest cause, ts = front ++ t :: rest ∧ Faultless (before ++ front) ∧
      Faulty (before ++ front) t cause ∧
      ts.foldlM check (opens.map Token.position) = .error ⟨t.position, cause⟩ := by
  induction ts generalizing before opens with
  | nil =>
    rw [List.append_nil]
    exact Or.inl ⟨opens, h, hfaultless, rfl⟩
  | cons t ts ih =>
    obtain ⟨ht, hts⟩ := List.forall_mem_cons.1 hts
    rw [List.foldlM_cons]
    rcases check_step ht h with ⟨opens', hleaves, hsound, hcheck⟩ | ⟨cause, hfault, hcheck⟩
    · have hnext := ih hts hleaves (hfaultless.concat hsound)
      rw [List.append_assoc, List.singleton_append] at hnext
      rw [hcheck]
      rcases hnext with hall | ⟨front, u, rest, cause, rfl, hfront, hfault, herror⟩
      · exact Or.inl hall
      · rw [List.append_assoc, List.singleton_append] at hfront hfault
        exact Or.inr ⟨t :: front, u, rest, cause, rfl, hfront, hfault, herror⟩
    · rw [hcheck]
      refine Or.inr ⟨[], t, ts, cause, rfl, ?_, ?_, rfl⟩
      · rw [List.append_nil]
        exact hfaultless
      · rw [List.append_nil]
        exact hfault

end Token

/-! ## Sources -/

namespace Tokens

/-- Nothing is wrong with the tokens of a source. -/
structure Accepted (ts : Tokens) : Prop where
  strings : ts.unclosed = none
  numbers : ∀ t ∈ ts.list, t.kind = .number → Decimal.Fits t.text
  closings : ∀ before t after, ts.list = before ++ t :: after → t.Closing →
    Token.OpenBehind before
  openings : ∀ before t after, ts.list = before ++ t :: after → t.Opening → Token.ClosedBy after

/-- What is wrong first: a token that has a fault, or else the string that is not closed, or else
the innermost brace that is not closed. -/
inductive FirstFault (ts : Tokens) : ParseError → Prop
  | token {before after : List Token} {t : Token} {cause : ParseCause}
    (hlist : ts.list = before ++ t :: after) (hfault : t.Faulty before cause)
    (hfirst : Token.Faultless before) : FirstFault ts ⟨t.position, cause⟩
  | string {p : Position} (hfaultless : Token.Faultless ts.list) (hunclosed : ts.unclosed = some p) :
    FirstFault ts ⟨p, .unterminatedString⟩
  | block {before after : List Token} {t : Token} (hfaultless : Token.Faultless ts.list)
    (hunclosed : ts.unclosed = none) (hlist : ts.list = before ++ t :: after) (ht : t.Opening)
    (hopen : ¬ Token.ClosedBy after)
    (hinnermost : ∀ front u rest, after = front ++ u :: rest → u.Opening → Token.ClosedBy rest) :
    FirstFault ts ⟨t.position, .unclosedBlock⟩

theorem FirstFault.not_accepted {ts : Tokens} {e : ParseError} (h : ts.FirstFault e) :
    ¬ ts.Accepted := by
  intro haccepted
  cases h with
  | @token before after t cause hlist hfault hfirst =>
    cases hfault with
    | number hkind hbad =>
      have ht : t ∈ ts.list := by simp [hlist]
      exact hbad (haccepted.numbers t ht hkind)
    | closing hclosing hnone => exact hnone (haccepted.closings before t after hlist hclosing)
  | string hfaultless hunclosed => cases hunclosed.symm.trans haccepted.strings
  | block hfaultless hunclosed hlist ht hopen => exact hopen (haccepted.openings _ _ _ hlist ht)

/-- Only one thing is wrong first. -/
theorem FirstFault.unique {ts : Tokens} {e e' : ParseError} (h : ts.FirstFault e)
    (h' : ts.FirstFault e') : e = e' := by
  cases h with
  | @token before after t cause hlist hfault hfirst =>
    cases h' with
    | @token before' after' t' cause' hlist' hfault' hfirst' =>
      rcases places_of_eq (hlist.symm.trans hlist') with
        ⟨rfl, rfl⟩ | ⟨more, hbefore, -⟩ | ⟨more, hbefore, -⟩
      · rw [hfault.unique hfault']
      · exact absurd hfault' (hfirst _ _ _ hbefore cause')
      · exact absurd hfault (hfirst' _ _ _ hbefore cause)
    | string hfaultless => exact absurd hfault (hfaultless _ _ _ hlist cause)
    | block hfaultless => exact absurd hfault (hfaultless _ _ _ hlist cause)
  | string hfaultless hunclosed =>
    cases h' with
    | @token _ _ _ cause hlist hfault => exact absurd hfault (hfaultless _ _ _ hlist cause)
    | string _ hunclosed' =>
      cases hunclosed.symm.trans hunclosed'
      rfl
    | block _ hunclosed' => cases hunclosed.symm.trans hunclosed'
  | block hfaultless hunclosed hlist ht hopen hinnermost =>
    cases h' with
    | @token _ _ _ cause hlist hfault => exact absurd hfault (hfaultless _ _ _ hlist cause)
    | string _ hunclosed' => cases hunclosed.symm.trans hunclosed'
    | block _ _ hlist' ht' hopen' hinnermost' =>
      rcases places_of_eq (hlist.symm.trans hlist') with
        ⟨-, rfl⟩ | ⟨more, -, hafter⟩ | ⟨more, -, hafter⟩
      · rfl
      · exact absurd (hinnermost' _ _ _ hafter ht) hopen
      · exact absurd (hinnermost _ _ _ hafter ht') hopen'

/-- Only what is wrong at the end could be mended by more text. -/
theorem FirstFault.incomplete_iff {ts : Tokens} {e : ParseError} (h : ts.FirstFault e) :
    e.cause.incomplete = true ↔ Token.Faultless ts.list := by
  cases h with
  | @token before after t cause hlist hfault hfirst =>
    have hfinal : cause.incomplete = false := by cases hfault <;> rfl
    rw [hfinal]
    constructor
    · intro hfalse
      cases hfalse
    · intro hfaultless
      exact absurd hfault (hfaultless _ _ _ hlist cause)
  | string hfaultless => exact ⟨fun _ => hfaultless, fun _ => rfl⟩
  | block hfaultless => exact ⟨fun _ => hfaultless, fun _ => rfl⟩

/-- The fault of a source is what is wrong first, if anything is wrong. -/
theorem fault?_cases {ts : Tokens} (hts : ∀ t ∈ ts.list, Token.Spells t.kind t.text) :
    (ts.fault? = none ∧ ts.Accepted) ∨ ∃ e, ts.fault? = some e ∧ ts.FirstFault e := by
  have hstart : Token.Faultless [] := by
    intro before t after hnil
    simp at hnil
  unfold fault?
  rcases Token.check_run hts (.nil .nil) hstart with
    ⟨opens, hleaves, hfaultless, hok⟩ | ⟨before, t, after, cause, hlist, hfirst, hfault, herror⟩
  · rw [List.nil_append] at hleaves hfaultless
    rw [List.map_nil] at hok
    simp only [hok, endFault?]
    cases hunclosed : ts.unclosed with
    | some p => exact Or.inr ⟨_, rfl, .string hfaultless hunclosed⟩
    | none =>
      -- With no brace left open, all braces match; else those match that are behind the last one.
      generalize hlist : ts.list = list at hleaves hfaultless
      cases hleaves with
      | nil hmatched =>
        rw [← hlist] at hmatched hfaultless
        refine Or.inl ⟨rfl, hunclosed, hfaultless.numbers, hfaultless.closings, ?_⟩
        intro before t after heq ht
        exact hmatched.closedBy heq ht
      | @cons before body opens o h ho hbody =>
        rw [← hlist] at hfaultless
        refine Or.inr ⟨_, rfl, .block hfaultless hunclosed hlist ho hbody.not_closedBy ?_⟩
        intro front u rest heq hu
        exact hbody.closedBy heq hu
  · rw [List.map_nil] at herror
    simp only [herror]
    exact Or.inr ⟨_, rfl, .token hlist hfault hfirst⟩

end Tokens

/-- Whatever names are known and whatever code is in front, a source compiles if and only if all its
strings are closed, its numbers are made of digits and not too large, no brace is closed that is not
open, and none is left open. It fails for what is wrong first: for the first token that is no valid
number or closes no brace, or else for the string that is not closed, or else for the innermost brace
that is left open; and only in the last two cases it is incomplete. -/
theorem Draft.compile_first_fault (d : Draft) (src : Bytes) :
    ((∃ program, (d.compile src).2 = .ok program) ↔ (tokenize src).Accepted) ∧
    (∀ e, (d.compile src).2 = .error e ↔ (tokenize src).FirstFault e) ∧
    ∀ e, (d.compile src).2 = .error e →
      (e.cause.incomplete = true ↔ Token.Faultless (tokenize src).list) := by
  have hcases := Tokens.fault?_cases (tokenize_spells src)
  rcases d.compile_verdict src with ⟨program, hok, hverdict⟩ | ⟨e, herror, hverdict⟩
  · have haccepted : (tokenize src).Accepted := by
      rcases hcases with ⟨-, haccepted⟩ | ⟨e, hsome, -⟩
      · exact haccepted
      · cases hverdict.symm.trans hsome
    rw [hok]
    refine ⟨⟨fun _ => haccepted, fun _ => ⟨program, rfl⟩⟩, fun e => ⟨?_, ?_⟩, ?_⟩
    · intro h
      cases h
    · intro hfault
      exact absurd haccepted hfault.not_accepted
    · intro e h
      cases h
  · have hfault : (tokenize src).FirstFault e := by
      rcases hcases with ⟨hnone, -⟩ | ⟨e', hsome, hfault⟩
      · cases hverdict.symm.trans hnone
      · cases hverdict.symm.trans hsome
        exact hfault
    rw [herror]
    refine ⟨⟨?_, ?_⟩, fun e' => ⟨?_, ?_⟩, ?_⟩
    · rintro ⟨program, hok⟩
      cases hok
    · intro haccepted
      exact absurd haccepted hfault.not_accepted
    · intro h
      cases h
      exact hfault
    · intro hfault'
      rw [hfault.unique hfault']
    · intro e' h
      cases h
      exact hfault.incomplete_iff

/-- A brace is closed that is not open, before a number that is too large and an open string; and the
inner one of two braces is left open, behind one that is closed. -/
theorem Draft.compile_first_fault_braces :
    (Draft.compile { ops := #[.ret] } (lit "\x7b 007 \x7d \x7d 9223372036854775808 \"")).2 =
      .error ⟨⟨8, 1, 9⟩, .unmatchedClose⟩ ∧
    (tokenize (lit "\x7b 007 \x7d \x7d 9223372036854775808 \"")).FirstFault
      ⟨⟨8, 1, 9⟩, .unmatchedClose⟩ ∧
    (Draft.compile { ops := #[.ret] } (lit "\x7b\n \x7b \x7b \x7d 1")).2 =
      .error ⟨⟨3, 2, 2⟩, .unclosedBlock⟩ ∧
    Token.Faultless (tokenize (lit "\x7b\n \x7b \x7b \x7d 1")).list := by
  have hclosing : (Draft.compile { ops := #[.ret] }
      (lit "\x7b 007 \x7d \x7d 9223372036854775808 \"")).2 =
      .error ⟨⟨8, 1, 9⟩, .unmatchedClose⟩ := by cbv
  have hopen : (Draft.compile { ops := #[.ret] } (lit "\x7b\n \x7b \x7b \x7d 1")).2 =
      .error ⟨⟨3, 2, 2⟩, .unclosedBlock⟩ := by cbv
  refine ⟨hclosing, ?_, hopen, ?_⟩
  · exact ((Draft.compile_first_fault { ops := #[.ret] } _).2.1 _).1 hclosing
  · exact ((Draft.compile_first_fault { ops := #[.ret] } _).2.2 _ hopen).1 rfl

end StackLang
