import StackLang.Proofs.Joining

/-!
# What a scan finds

The rules by which a text is split into gaps and tokens, without regard to how a scanner goes about
it, and the proof that the scanner keeps to them: it finds what the rules allow, and the rules never
allow anything else.

* `Token.Gap`: white space and comments in front of a text.
* `Token.Spells`: the texts of each class of tokens.
* `Token.Ends`: what may follow directly on a token.
* `Token.Finds`: what is to be found at the start of a text, and is found there
  (`Token.scan_finds`, `Token.Finds.scan_eq`).
-/

namespace StackLang.Token

/-! ## Gaps -/

/-- White space and comments in front of `rest`. A comment starts with a hash sign and reaches up to
a line break or the end of the source. -/
inductive Gap (rest : Bytes) : Bytes → Prop
  | nil : Gap rest []
  | space {b : UInt8} {gap : Bytes} (hb : Byte.isSpace b = true) (h : Gap rest gap) :
    Gap rest (b :: gap)
  | comment {text gap : Bytes} (htext : Byte.newline ∉ text)
    (hend : (gap ++ rest).head? = some Byte.newline ∨ gap ++ rest = []) (h : Gap rest gap) :
    Gap rest (Byte.hash :: (text ++ gap))

/-- A text that starts with a token, if it is not empty. -/
def Begins (s : Bytes) : Prop := ∀ b ∈ s.head?, Byte.isSpace b = false ∧ b ≠ Byte.hash

theorem splitGap_comment (b : UInt8) (s : Bytes) :
    splitGap true (b :: s) =
      (b :: (splitGap (b != Byte.newline) s).1, (splitGap (b != Byte.newline) s).2) := by
  simp [splitGap]

theorem splitGap_space {b : UInt8} (hb : Byte.isSpace b = true) (s : Bytes) :
    splitGap false (b :: s) = (b :: (splitGap false s).1, (splitGap false s).2) := by
  simp [splitGap, hb]

theorem splitGap_hash (s : Bytes) :
    splitGap false (Byte.hash :: s) = (Byte.hash :: (splitGap true s).1, (splitGap true s).2) := by
  have hspace : Byte.isSpace Byte.hash = false := by decide
  simp [splitGap, hspace]

theorem splitGap_begins {s : Bytes} (h : Begins s) : splitGap false s = ([], s) := by
  cases s with
  | nil => rfl
  | cons b r =>
    obtain ⟨hspace, hhash⟩ := h b rfl
    simp [splitGap, hspace, hhash]

/-- A line break ends a comment, and then is white space. -/
theorem splitGap_newline (s : Bytes) :
    splitGap true (Byte.newline :: s) = splitGap false (Byte.newline :: s) := by
  rw [splitGap_comment, splitGap_space (by decide)]
  rfl

/-- A comment may have more bytes in front. -/
theorem Gap.lengthen {rest gap : Bytes} (h : Gap rest (Byte.hash :: gap)) {b : UInt8}
    (hb : b ≠ Byte.newline) : Gap rest (Byte.hash :: b :: gap) := by
  cases h with
  | space hspace => exact absurd hspace (by decide)
  | @comment text gap htext hend h =>
    have hmore : Byte.newline ∉ b :: text := by
      rw [List.mem_cons]
      rintro (heq | hmem)
      · exact hb heq.symm
      · exact htext hmem
    exact .comment hmore hend h

/-- What is split off a text is a gap, also from within a comment, without its start. -/
theorem gap_splitGap (s : Bytes) :
    Gap (splitGap false s).2 (splitGap false s).1 ∧
      Gap (splitGap true s).2 (Byte.hash :: (splitGap true s).1) := by
  induction s with
  | nil =>
    have hempty : Gap [] (Byte.hash :: ([] ++ [])) := .comment (by simp) (Or.inr rfl) .nil
    exact ⟨.nil, hempty⟩
  | cons b s ih =>
    obtain ⟨hoff, hon⟩ := ih
    constructor
    · by_cases hspace : Byte.isSpace b = true
      · rw [splitGap_space hspace]
        exact .space hspace hoff
      · by_cases hhash : b = Byte.hash
        · rw [hhash, splitGap_hash]
          exact hon
        · have hbegins : Begins (b :: s) := by simp [Begins, hspace, hhash]
          rw [splitGap_begins hbegins]
          exact .nil
    · by_cases hb : b = Byte.newline
      · have hspace : Byte.isSpace b = true := by rw [hb]; decide
        have hempty : Gap (splitGap false s).2
            (Byte.hash :: ([] ++ b :: (splitGap false s).1)) :=
          .comment (by simp) (Or.inl (by rw [hb]; rfl)) (.space hspace hoff)
        rw [hb, splitGap_newline, ← hb, splitGap_space hspace]
        exact hempty
      · have hin : (b != Byte.newline) = true := by simpa using hb
        rw [splitGap_comment, hin]
        exact hon.lengthen hb

/-- From within a comment, a gap goes on behind the comment. -/
theorem splitGap_true_append {text : Bytes} (htext : Byte.newline ∉ text) {s : Bytes}
    (hend : s.head? = some Byte.newline ∨ s = []) :
    splitGap true (text ++ s) = (text ++ (splitGap false s).1, (splitGap false s).2) := by
  induction text with
  | nil =>
    rcases hend with hend | rfl
    · obtain ⟨r, rfl⟩ := List.head?_eq_some_iff.1 hend
      exact splitGap_newline r
    · rfl
  | cons b text ih =>
    rw [List.mem_cons, not_or] at htext
    have hb : (b != Byte.newline) = true := by simpa using Ne.symm htext.1
    rw [List.cons_append, splitGap_comment, hb, ih htext.2]
    rfl

/-- A gap is split off as a whole. -/
theorem splitGap_append_of_gap {gap rest : Bytes} (h : Gap rest gap) (hrest : Begins rest) :
    splitGap false (gap ++ rest) = (gap, rest) := by
  induction h with
  | nil => exact splitGap_begins hrest
  | space hb h ih =>
    rw [List.cons_append, splitGap_space hb, ih]
  | comment htext hend h ih =>
    rw [List.cons_append, List.append_assoc, splitGap_hash, splitGap_true_append htext hend, ih]

/-! ## Literals -/

/-- A text with quotes in doubled pairs only. -/
inductive Paired : Bytes → Prop
  | nil : Paired []
  | byte {b : UInt8} {s : Bytes} (hb : b ≠ Byte.quote) (h : Paired s) : Paired (b :: s)
  | pair {s : Bytes} (h : Paired s) : Paired (Byte.quote :: Byte.quote :: s)

/-- Behind an opening quote, a text has a quote that closes the literal: what is before it has
quotes in doubled pairs only, and it is not doubled itself. -/
def Closes (s : Bytes) : Prop :=
  ∃ body rest, s = body ++ Byte.quote :: rest ∧ Paired body ∧ rest.head? ≠ some Byte.quote

theorem splitLiteral_byte {b : UInt8} (hb : b ≠ Byte.quote) (s : Bytes) :
    splitLiteral (b :: s) = (splitLiteral s).map fun (body, rest) => (b :: body, rest) := by
  cases s with
  | nil => simp [splitLiteral, hb]
  | cons c r => simp [splitLiteral, hb]

theorem splitLiteral_quote {rest : Bytes} (h : rest.head? ≠ some Byte.quote) :
    splitLiteral (Byte.quote :: rest) = some ([Byte.quote], rest) := by
  cases rest with
  | nil => rfl
  | cons c r =>
    have hc : c ≠ Byte.quote := by simpa using h
    simp [splitLiteral, hc]

/-- A literal is split off up to the quote that closes it. -/
theorem splitLiteral_of_paired {body rest : Bytes} (h : Paired body)
    (hrest : rest.head? ≠ some Byte.quote) :
    splitLiteral (body ++ Byte.quote :: rest) = some (body ++ [Byte.quote], rest) := by
  induction h with
  | nil => exact splitLiteral_quote hrest
  | byte hb _ ih =>
    rw [List.cons_append, splitLiteral_byte hb, ih]
    rfl
  | pair _ ih =>
    rw [List.cons_append, List.cons_append, splitLiteral, if_pos rfl, if_pos rfl, ih]
    rfl

/-- What is split off is a literal. -/
theorem paired_of_splitLiteral {s text rest : Bytes} (h : splitLiteral s = some (text, rest)) :
    ∃ body, text = body ++ [Byte.quote] ∧ Paired body ∧ rest.head? ≠ some Byte.quote := by
  fun_induction splitLiteral s generalizing text rest with
  | case1 => cases h
  | case2 =>
    cases h
    exact ⟨[], rfl, .nil, by simp⟩
  | case3 => cases h
  | case4 r ih =>
    obtain ⟨⟨text', rest'⟩, h', heq⟩ := Option.map_eq_some_iff.1 h
    cases heq
    obtain ⟨body, rfl, hbody, hrest⟩ := ih h'
    exact ⟨Byte.quote :: Byte.quote :: body, rfl, .pair hbody, hrest⟩
  | case5 c r hc =>
    cases h
    exact ⟨[], rfl, .nil, by simpa using hc⟩
  | case6 b c r hb ih =>
    obtain ⟨⟨text', rest'⟩, h', heq⟩ := Option.map_eq_some_iff.1 h
    cases heq
    obtain ⟨body, rfl, hbody, hrest⟩ := ih h'
    exact ⟨b :: body, rfl, .byte hb hbody, hrest⟩

theorem splitLiteral_eq_none_iff {s : Bytes} : splitLiteral s = none ↔ ¬ Closes s := by
  constructor
  · rintro hnone ⟨body, rest, rfl, hbody, hrest⟩
    rw [splitLiteral_of_paired hbody hrest] at hnone
    cases hnone
  · intro hopen
    cases hsplit : splitLiteral s with
    | none => rfl
    | some literal =>
      obtain ⟨body, htext, hbody, hrest⟩ := paired_of_splitLiteral hsplit
      refine absurd ⟨body, literal.2, ?_, hbody, hrest⟩ hopen
      rw [← splitLiteral_append hsplit, htext]
      simp

/-! ## Words -/

/-- A text without white space. -/
def Solid (s : Bytes) : Prop := ∀ b ∈ s, Byte.isSpace b = false

instance (s : Bytes) : Decidable (Solid s) := inferInstanceAs (Decidable (∀ b ∈ s, _))

theorem splitWord_of_solid {text rest : Bytes} (htext : Solid text)
    (hrest : ∀ b ∈ rest.head?, Byte.isSpace b = true) :
    splitWord (text ++ rest) = (text, rest) := by
  have hstop : rest.takeWhile (fun b => !Byte.isSpace b) = [] ∧
      rest.dropWhile (fun b => !Byte.isSpace b) = rest := by
    cases rest with
    | nil => exact ⟨rfl, rfl⟩
    | cons b r =>
      have hb : Byte.isSpace b = true := hrest b rfl
      simp [hb]
  have hall : ∀ b ∈ text, (!Byte.isSpace b) = true := by
    intro b hb
    simp [htext b hb]
  rw [splitWord, List.takeWhile_append_of_pos hall, List.dropWhile_append_of_pos hall, hstop.1,
    hstop.2, List.append_nil]

theorem solid_splitWord (s : Bytes) :
    Solid (splitWord s).1 ∧ ∀ b ∈ (splitWord s).2.head?, Byte.isSpace b = true := by
  constructor
  · intro b hb
    simpa using List.all_eq_true.1 List.all_takeWhile b hb
  · intro b hb
    have hhead := List.head?_dropWhile_not (fun b => !Byte.isSpace b) s
    have hb' : (s.dropWhile fun b => !Byte.isSpace b).head? = some b := hb
    rw [hb'] at hhead
    simpa using hhead

/-! ## Tokens -/

/-- The texts of each class of tokens. -/
inductive Spells : Kind → Bytes → Prop
  | string {body : Bytes} (hbody : Paired body) :
    Spells .string (Byte.quote :: (body ++ [Byte.quote]))
  | symbol {s : Bytes} (hs : Solid s) : Spells .symbol (Byte.colon :: s)
  | number {d : UInt8} {s : Bytes} (hd : Byte.isDigit d = true) (hs : Solid s) :
    Spells .number (d :: s)
  | word {b : UInt8} {s : Bytes} (hquote : b ≠ Byte.quote) (hcolon : b ≠ Byte.colon)
    (hdigit : Byte.isDigit b = false) (hhash : b ≠ Byte.hash) (hs : Solid (b :: s)) :
    Spells .word (b :: s)

/-- What may follow directly on a token: on a string anything but another quote, and on all others
only white space or the end of the source. -/
def Ends (kind : Kind) (rest : Bytes) : Prop :=
  match kind with
  | .string => rest.head? ≠ some Byte.quote
  | _ => ∀ b ∈ rest.head?, Byte.isSpace b = true

theorem ends_of_space {kind : Kind} {rest : Bytes}
    (h : ∀ b ∈ rest.head?, Byte.isSpace b = true) : Ends kind rest := by
  cases kind with
  | string =>
    intro hquote
    exact absurd (h _ hquote) (by decide)
  | number | symbol | word | other tag => exact h

theorem Ends.space {kind : Kind} {rest : Bytes} (h : Ends kind rest) (hkind : kind ≠ .string) :
    ∀ b ∈ rest.head?, Byte.isSpace b = true := by
  cases kind with
  | string => exact absurd rfl hkind
  | number | symbol | word | other tag => exact h

theorem not_space_of_digit {d : UInt8} (hd : Byte.isDigit d = true) : Byte.isSpace d = false := by
  cases hspace : Byte.isSpace d with
  | false => rfl
  | true =>
    simp only [Byte.isSpace, Bool.or_eq_true, beq_iff_eq] at hspace
    rcases hspace with ((rfl | rfl) | rfl) | rfl <;> exact absurd hd (by decide)

theorem digit_ne {d b : UInt8} (hd : Byte.isDigit d = true) (hb : Byte.isDigit b = false) :
    d ≠ b := by
  rintro rfl
  rw [hd] at hb
  cases hb

/-- What is not a string has no white space, and its first byte says its class. -/
theorem Spells.solid {kind : Kind} {text : Bytes} (h : Spells kind text) (hkind : kind ≠ .string) :
    Solid text ∧ ∃ b s, text = b :: s ∧ b ≠ Byte.quote ∧ b ≠ Byte.hash ∧
      kind = Kind.ofFirst b := by
  cases h with
  | string => exact absurd rfl hkind
  | @symbol s hs =>
    refine ⟨?_, _, s, rfl, by decide, by decide, rfl⟩
    exact List.forall_mem_cons.2 ⟨by decide, hs⟩
  | @number d s hd hs =>
    have hquote := digit_ne (b := Byte.quote) hd (by decide)
    have hcolon := digit_ne (b := Byte.colon) hd (by decide)
    have hhash := digit_ne (b := Byte.hash) hd (by decide)
    refine ⟨List.forall_mem_cons.2 ⟨not_space_of_digit hd, hs⟩, d, s, rfl, hquote, hhash, ?_⟩
    simp [Kind.ofFirst, hquote, hcolon, hd]
  | @word b s hquote hcolon hdigit hhash hs =>
    refine ⟨hs, b, s, rfl, hquote, hhash, ?_⟩
    simp [Kind.ofFirst, hquote, hcolon, hdigit]

theorem spells_ofFirst {b : UInt8} {s : Bytes} (hquote : b ≠ Byte.quote) (hhash : b ≠ Byte.hash)
    (hs : Solid (b :: s)) : Spells (Kind.ofFirst b) (b :: s) := by
  unfold Kind.ofFirst
  rw [if_neg hquote]
  by_cases hcolon : b = Byte.colon
  · rw [if_pos hcolon, hcolon]
    exact .symbol fun x hx => hs x (List.mem_cons_of_mem _ hx)
  · rw [if_neg hcolon]
    by_cases hdigit : Byte.isDigit b = true
    · rw [if_pos hdigit]
      exact .number hdigit fun x hx => hs x (List.mem_cons_of_mem _ hx)
    · rw [if_neg hdigit]
      exact .word hquote hcolon (by simpa using hdigit) hhash hs

/-- A token is no gap. -/
theorem Spells.begins {kind : Kind} {text : Bytes} (h : Spells kind text) (rest : Bytes) :
    Begins (text ++ rest) := by
  by_cases hkind : kind = .string
  · subst hkind
    cases h with
    | string hbody => simp [Begins, Byte.isSpace, Byte.quote, Byte.hash]
  · obtain ⟨hsolid, b, s, rfl, -, hhash, -⟩ := h.solid hkind
    have hspace := hsolid b List.mem_cons_self
    simp [Begins, hspace, hhash]

/-! ## Scans -/

/-- What is to be found at the start of `s`, where the cursor `c` stands: a gap, and then a token, an
opening quote that nothing closes, or the end of the source. -/
inductive Finds (c : Cursor) (s : Bytes) : Scan → Prop
  | token {gap text rest : Bytes} {kind : Kind} (hs : s = gap ++ (text ++ rest))
    (hgap : Gap (text ++ rest) gap) (hspells : Spells kind text) (hends : Ends kind rest) :
    Finds c s (.token ⟨kind, text, (c.advance gap).position⟩ ((c.advance gap).advance text) rest)
  | unterminated {gap rest : Bytes} (hs : s = gap ++ Byte.quote :: rest)
    (hgap : Gap (Byte.quote :: rest) gap) (hopen : ¬ Closes rest) :
    Finds c s
      (.unterminated (c.advance gap).position ((c.advance gap).advance (Byte.quote :: rest)))
  | finished (hgap : Gap [] s) : Finds c s (.finished (c.advance s))

/-- A scan finds what is there. -/
theorem scan_finds (c : Cursor) (s : Bytes) : Finds c s (scan c s) := by
  have hsplit := splitGap_append false s
  have hgap := (gap_splitGap s).1
  unfold scan
  simp only
  cases hrest : (splitGap false s).2 with
  | nil =>
    rw [hrest] at hgap hsplit
    rw [List.append_nil] at hsplit
    rw [hsplit] at hgap ⊢
    exact .finished hgap
  | cons b r =>
    obtain ⟨hspace, hhash⟩ := splitGap_rest hrest
    rw [hrest] at hgap hsplit
    by_cases hquote : b = Byte.quote
    · simp only [if_pos hquote]
      cases hliteral : splitLiteral r with
      | none =>
        subst hquote
        exact .unterminated hsplit.symm hgap (splitLiteral_eq_none_iff.1 hliteral)
      | some literal =>
        obtain ⟨text, rest⟩ := literal
        obtain ⟨body, rfl, hbody, hends⟩ := paired_of_splitLiteral hliteral
        subst hquote
        have happend : Byte.quote :: (body ++ [Byte.quote]) ++ rest = Byte.quote :: r := by
          rw [List.cons_append, splitLiteral_append hliteral]
        rw [← happend] at hgap hsplit
        exact .token hsplit.symm hgap (.string hbody) hends
    · simp only [if_neg hquote]
      have happend := splitWord_append (b :: r)
      obtain ⟨hsolid, hends⟩ := solid_splitWord (b :: r)
      have hfirst : (splitWord (b :: r)).1 = b :: (splitWord r).1 := by simp [splitWord, hspace]
      rw [hfirst] at hsolid happend ⊢
      have hspells := spells_ofFirst hquote hhash hsolid
      rw [← happend] at hgap hsplit
      exact .token hsplit.symm hgap hspells (ends_of_space hends)

/-- There is nothing else to be found. -/
theorem Finds.scan_eq {c : Cursor} {s : Bytes} {found : Scan} (h : Finds c s found) :
    scan c s = found := by
  cases h with
  | @token gap text rest kind hs hgap hspells hends =>
    subst hs
    unfold scan
    rw [splitGap_append_of_gap hgap (hspells.begins rest)]
    by_cases hkind : kind = .string
    · subst hkind
      cases hspells with
      | @string body hbody =>
        have hliteral := splitLiteral_of_paired hbody hends
        simp [hliteral]
    · obtain ⟨hsolid, b, s, rfl, hquote, -, rfl⟩ := hspells.solid hkind
      have hword := splitWord_of_solid hsolid (hends.space hkind)
      rw [List.cons_append] at hword
      simp [hquote, hword]
  | @unterminated gap rest hs hgap hopen =>
    subst hs
    have hbegins : Begins (Byte.quote :: rest) := by
      simp [Begins, Byte.isSpace, Byte.quote, Byte.hash]
    unfold scan
    rw [splitGap_append_of_gap hgap hbegins]
    simp [splitLiteral_eq_none_iff.2 hopen]
  | finished hgap =>
    have hbegins : Begins [] := by simp [Begins]
    have hsplit := splitGap_append_of_gap hgap hbegins
    rw [List.append_nil] at hsplit
    unfold scan
    rw [hsplit]

end StackLang.Token
