import Mathlib
import StackLang.Proofs.Scanning

/-!
# Where tokens stand

The tokens of a source are spans of it, one behind the other, with gaps between them. Each has the
position at which it starts. Scanning ends at the end of the source or at an opening quote that
nothing closes, and there is only one way to get there.

* `Position.At`: the position of an offset, in terms of the line breaks before it.
* `Token.Stands`: a token that is a span of a source.
* `Leads`: tokens and gaps that lead from one offset to another.
* `tokenize_spans`: the tokens of a source lead from its start to where scanning ends.
-/

namespace StackLang

/-! ## Positions -/

/-- The last line of `s` starts at `n`: behind the last line break, or else at the start. -/
def LineStart (s : Bytes) (n : Nat) : Prop :=
  (n = 0 ∨ s[n - 1]? = some Byte.newline) ∧ Byte.newline ∉ s.drop n

/-- The position of offset `n` of a source. -/
structure Position.At (src : Bytes) (n : Nat) (p : Position) : Prop where
  offset : p.offset = n
  line : p.line = 1 + (src.take n).count Byte.newline
  column : ∃ start, LineStart (src.take n) start ∧ p.column = n - start + 1

theorem LineStart.le {s : Bytes} {m n : Nat} (hm : LineStart s m) (hn : LineStart s n) : m ≤ n := by
  rcases hm.1 with rfl | hbreak
  · exact Nat.zero_le n
  · by_contra hlt
    obtain ⟨hlength, hget⟩ := List.getElem?_eq_some_iff.1 hbreak
    refine hn.2 (List.mem_iff_getElem.2 ⟨m - 1 - n, ?_, ?_⟩)
    · rw [List.length_drop]
      omega
    · have hindex : n + (m - 1 - n) = m - 1 := by omega
      rw [List.getElem_drop, ← hget]
      congr 1

/-- An offset has one position only. -/
theorem Position.At.unique {src : Bytes} {n : Nat} {p q : Position} (hp : p.At src n)
    (hq : q.At src n) : p = q := by
  obtain ⟨start, hstart, hcolumn⟩ := hp.column
  obtain ⟨start', hstart', hcolumn'⟩ := hq.column
  have hsame : start = start' := Nat.le_antisymm (hstart.le hstart') (hstart'.le hstart)
  subst hsame
  have hoffset := hp.offset.trans hq.offset.symm
  have hline := hp.line.trans hq.line.symm
  have hcolumns := hcolumn.trans hcolumn'.symm
  cases p
  cases q
  rw [Position.mk.injEq]
  exact ⟨hoffset, hline, hcolumns⟩

namespace Cursor

/-- The cursor at offset `n` of a source. -/
def ofOffset (src : Bytes) (n : Nat) : Cursor := advance {} (src.take n)

theorem advance_append (c : Cursor) (s s' : Bytes) :
    c.advance (s ++ s') = (c.advance s).advance s' := List.foldl_append

theorem ofOffset_extract {m n : Nat} (h : m ≤ n) (src : Bytes) :
    (ofOffset src m).advance (src.extract m n) = ofOffset src n := by
  have htake : src.take n = src.take m ++ src.extract m n := by
    rw [List.extract_eq_take_drop, ← List.take_add, Nat.add_sub_cancel' h]
  rw [ofOffset, ofOffset, htake, advance_append]

theorem next_lineStart {c : Cursor} {s : Bytes} (hoffset : c.offset = s.length)
    (h : LineStart s c.lineStart) (b : UInt8) : LineStart (s ++ [b]) (c.next b).lineStart := by
  unfold next
  split
  · rename_i hb
    subst hb
    simp [LineStart, hoffset]
  · rename_i hb
    obtain ⟨hstart, hunbroken⟩ := h
    constructor
    · refine hstart.imp_right fun hbreak => ?_
      rw [List.getElem?_append_left (List.getElem?_eq_some_iff.1 hbreak).1]
      exact hbreak
    · intro hmem
      rw [List.drop_append, List.mem_append] at hmem
      rcases hmem with hmem | hmem
      · exact hunbroken hmem
      · exact hb (List.mem_singleton.1 (List.mem_of_mem_drop hmem)).symm

/-- What a cursor knows when it has passed a text. -/
theorem start_advance (s : Bytes) :
    (advance {} s).offset = s.length ∧ (advance {} s).line = 1 + s.count Byte.newline ∧
      LineStart s (advance {} s).lineStart := by
  induction s using List.reverseRecOn with
  | nil => exact ⟨rfl, rfl, Or.inl rfl, by simp [advance]⟩
  | append_singleton s b ih =>
    obtain ⟨hoffset, hline, hstart⟩ := ih
    have hnext : advance {} (s ++ [b]) = (advance {} s).next b := advance_append _ _ _
    rw [hnext, List.length_append, List.length_singleton, List.count_append,
      List.count_singleton]
    refine ⟨?_, ?_, next_lineStart hoffset hstart b⟩
    · rw [← hoffset]
      unfold next
      split <;> rfl
    · unfold next
      by_cases hb : b = Byte.newline
      · simp [hb, hline, Nat.add_assoc]
      · simp [hb, hline]

theorem position_at {src : Bytes} {n : Nat} (hn : n ≤ src.length) :
    (ofOffset src n).position.At src n := by
  obtain ⟨hoffset, hline, hstart⟩ := start_advance (src.take n)
  rw [List.length_take_of_le hn] at hoffset
  refine ⟨congrArg Int.ofNat hoffset, ?_, _, hstart, ?_⟩
  · exact (congrArg Int.ofNat hline).trans (by simp)
  · rw [position, ofOffset, hoffset]

end Cursor

/-! ## Spans -/

/-- The token `t` is the span of a source that starts at `n`. -/
structure Token.StandsAt (src : Bytes) (n : Nat) (t : Token) : Prop where
  text : t.text = src.extract n (n + t.text.length)
  position : t.position.At src n
  spells : Spells t.kind t.text
  ends : Ends t.kind (src.drop (n + t.text.length))

/-- From `m` to `n`, a source is made of the tokens `ts`, with gaps between them and at both ends. -/
inductive Leads (src : Bytes) : (m : Nat) → (ts : List Token) → (n : Nat) → Prop
  | gap {m n : Nat} (hle : m ≤ n) (hgap : Token.Gap (src.drop n) (src.extract m n)) :
    Leads src m [] n
  | token {m k n : Nat} {t : Token} {ts : List Token} (hle : m ≤ k)
    (hgap : Token.Gap (src.drop k) (src.extract m k)) (ht : t.StandsAt src k)
    (h : Leads src (k + t.text.length) ts n) : Leads src m (t :: ts) n

/-- What ends scanning at `n`: the end of the source, or an opening quote that nothing closes. -/
inductive Stops (src : Bytes) : (n : Nat) → (unclosed : Option Position) → Prop
  | finished : Stops src src.length none
  | unclosed {n : Nat} {p : Position} (hquote : src[n]? = some Byte.quote)
    (hopen : ¬ Token.Closes (src.drop (n + 1))) (hp : p.At src n) : Stops src n (some p)

theorem extract_append_drop {m n : Nat} (h : m ≤ n) (src : Bytes) :
    src.extract m n ++ src.drop n = src.drop m := by
  have hdrop : src.drop n = (src.drop m).drop (n - m) := by
    rw [List.drop_drop, Nat.add_sub_cancel' h]
  rw [List.extract_eq_take_drop, hdrop, List.take_append_drop]

theorem extract_of_drop {src s rest : Bytes} {n : Nat} (h : src.drop n = s ++ rest) :
    src.extract n (n + s.length) = s ∧ src.drop (n + s.length) = rest := by
  constructor
  · rw [List.extract_eq_take_drop, h, Nat.add_sub_cancel_left, List.take_left]
  · rw [← List.drop_drop, h, List.drop_left]

theorem Cursor.ofOffset_advance {src s rest : Bytes} {n : Nat} (h : src.drop n = s ++ rest) :
    (ofOffset src n).advance s = ofOffset src (n + s.length) := by
  have hextract := ofOffset_extract (Nat.le_add_right n s.length) src
  rw [(extract_of_drop h).1] at hextract
  exact hextract

namespace Token

theorem Spells.length_pos {kind : Kind} {text : Bytes} (h : Spells kind text) :
    0 < text.length := by
  cases h <;> exact Nat.succ_pos _

theorem StandsAt.le {src : Bytes} {n : Nat} {t : Token} (h : t.StandsAt src n) :
    n + t.text.length ≤ src.length := by
  have hlength := congrArg List.length h.text
  have hpos := h.spells.length_pos
  rw [List.extract_eq_take_drop, List.length_take, List.length_drop] at hlength
  omega

/-- A gap is passed over. -/
theorem scan_gap {gap rest : Bytes} (hgap : Gap rest gap) (hrest : Begins rest) (c : Cursor) :
    scan c (gap ++ rest) = scan (c.advance gap) rest := by
  unfold scan
  rw [splitGap_append_of_gap hgap hrest, splitGap_begins hrest]
  rfl

theorem StandsAt.begins {src : Bytes} {n : Nat} {t : Token} (h : t.StandsAt src n) :
    Begins (src.drop n) := by
  rw [← extract_append_drop (Nat.le_add_right n t.text.length), ← h.text]
  exact h.spells.begins _

/-- A token is found where it stands. -/
theorem StandsAt.scan_eq {src : Bytes} {n : Nat} {t : Token} (h : t.StandsAt src n) :
    scan (.ofOffset src n) (src.drop n) =
      .token t (.ofOffset src (n + t.text.length)) (src.drop (n + t.text.length)) := by
  have hle := Nat.le_add_right n t.text.length
  have hplace := h.position.unique (Cursor.position_at (Nat.le_trans hle h.le))
  have hsplit : src.drop n = [] ++ (t.text ++ src.drop (n + t.text.length)) := by
    rw [← extract_append_drop hle, ← h.text]
    rfl
  have hfinds := Finds.token (c := .ofOffset src n) hsplit .nil h.spells h.ends
  rw [hfinds.scan_eq, ← Cursor.ofOffset_extract hle, ← h.text]
  show Scan.token ⟨t.kind, t.text, (Cursor.ofOffset src n).position⟩ _ _ = _
  rw [← hplace]
  rfl

end Token

/-- Scanning goes the way that tokens and gaps lead. -/
theorem Leads.tokenizeFrom_eq {src : Bytes} {m n : Nat} {ts : List Token} (h : Leads src m ts n)
    (hn : Token.Begins (src.drop n)) :
    tokenizeFrom (.ofOffset src m) (src.drop m) =
      (tokenizeFrom (.ofOffset src n) (src.drop n)).prepend ts := by
  induction h with
  | @gap m n hle hgap =>
    have hscan := Token.scan_gap hgap hn (.ofOffset src m)
    rw [extract_append_drop hle, Cursor.ofOffset_extract hle] at hscan
    exact tokenizeFrom_congr hscan
  | @token m k n t ts hle hgap ht h ih =>
    have hscan := Token.scan_gap hgap ht.begins (.ofOffset src m)
    rw [extract_append_drop hle, Cursor.ofOffset_extract hle, ht.scan_eq] at hscan
    rw [tokenizeFrom_token hscan, ih hn]
    rfl

/-- Scanning ends where it has to stop. -/
theorem Stops.tokenizeFrom_eq {src : Bytes} {n : Nat} {unclosed : Option Position}
    (h : Stops src n unclosed) :
    Token.Begins (src.drop n) ∧
      (tokenizeFrom (.ofOffset src n) (src.drop n)).list = [] ∧
      (tokenizeFrom (.ofOffset src n) (src.drop n)).unclosed = unclosed := by
  cases h with
  | finished =>
    have hfinds : Token.Finds (.ofOffset src src.length) [] _ := .finished .nil
    rw [List.drop_length, tokenizeFrom_finished hfinds.scan_eq]
    exact ⟨by simp [Token.Begins], rfl, rfl⟩
  | @unclosed n p hquote hopen hp =>
    obtain ⟨hlt, hget⟩ := List.getElem?_eq_some_iff.1 hquote
    have hdrop : src.drop n = Byte.quote :: src.drop (n + 1) := by
      rw [List.drop_eq_getElem_cons hlt, hget]
    have hfinds : Token.Finds (.ofOffset src n) (src.drop n) _ := .unterminated hdrop .nil hopen
    rw [tokenizeFrom_unterminated hfinds.scan_eq, hdrop]
    refine ⟨by simp [Token.Begins, Byte.isSpace, Byte.quote, Byte.hash], rfl, ?_⟩
    exact congrArg some ((Cursor.position_at (Nat.le_of_lt hlt)).unique hp)

/-- Tokens and gaps lead to where scanning ends. -/
theorem leads_tokenizeFrom {src : Bytes} {m : Nat} (hm : m ≤ src.length) :
    (∃ n, Leads src m (tokenizeFrom (.ofOffset src m) (src.drop m)).list n ∧
      Stops src n (tokenizeFrom (.ofOffset src m) (src.drop m)).unclosed) ∧
    (tokenizeFrom (.ofOffset src m) (src.drop m)).stop = .ofOffset src src.length := by
  induction hleft : src.length - m using Nat.strongRecOn generalizing m with
  | ind left ih =>
    subst hleft
    have hfinds := Token.scan_finds (.ofOffset src m) (src.drop m)
    generalize hscan : Token.scan (.ofOffset src m) (src.drop m) = found at hfinds
    cases hfinds with
    | @token gap text rest kind hs hgap hspells hends =>
      obtain ⟨hextract, hdrop⟩ := extract_of_drop hs
      obtain ⟨htext, hrest⟩ := extract_of_drop hdrop
      have hlength := congrArg List.length hs
      have hpos := hspells.length_pos
      simp only [List.length_drop, List.length_append] at hlength
      have hstands : Token.StandsAt src (m + gap.length)
          ⟨kind, text, (Cursor.ofOffset src (m + gap.length)).position⟩ := by
        refine ⟨htext.symm, Cursor.position_at (by omega), hspells, ?_⟩
        rw [hrest]
        exact hends
      obtain ⟨⟨n, hleads, hstops⟩, hstop⟩ :=
        ih (src.length - (m + gap.length + text.length)) (by omega) (by omega) rfl
      rw [tokenizeFrom_token hscan, Cursor.ofOffset_advance hs, Cursor.ofOffset_advance hdrop,
        ← hrest]
      refine ⟨⟨n, .token (Nat.le_add_right m gap.length) ?_ hstands hleads, hstops⟩, hstop⟩
      rw [hextract, hdrop]
      exact hgap
    | @unterminated gap rest hs hgap hopen =>
      obtain ⟨hextract, hdrop⟩ := extract_of_drop hs
      have hlength := congrArg List.length hs
      simp only [List.length_drop, List.length_append, List.length_cons] at hlength
      have hquote : src[m + gap.length]? = some Byte.quote := by
        rw [← List.head?_drop, hdrop]
        rfl
      have hrest : src.drop (m + gap.length + 1) = rest := by
        rw [← List.drop_drop, hdrop]
        rfl
      -- The scanner passes all that is behind the quote.
      rw [← List.append_nil (Byte.quote :: rest)] at hdrop
      have hend : m + gap.length + (Byte.quote :: rest).length = src.length := by
        rw [List.length_cons]
        omega
      rw [tokenizeFrom_unterminated hscan, Cursor.ofOffset_advance hs,
        Cursor.ofOffset_advance hdrop, hend]
      refine ⟨⟨_, .gap (Nat.le_add_right m gap.length) ?_, .unclosed hquote ?_ ?_⟩, rfl⟩
      · rw [hextract, hdrop, List.append_nil]
        exact hgap
      · rw [hrest]
        exact hopen
      · exact Cursor.position_at (by omega)
    | finished hgap =>
      have hextract : src.extract m src.length = src.drop m := by
        rw [← extract_append_drop hm, List.drop_length, List.append_nil]
      have hend := Cursor.ofOffset_extract hm src
      rw [hextract] at hend
      rw [tokenizeFrom_finished hscan, hend]
      refine ⟨⟨_, .gap hm ?_, .finished⟩, rfl⟩
      rw [hextract, List.drop_length]
      exact hgap

theorem Leads.le {src : Bytes} {m n : Nat} {ts : List Token} (h : Leads src m ts n) :
    ∀ t ∈ ts, (m : Int) ≤ t.position.offset := by
  induction h with
  | gap => simp
  | @token m k n t ts hle hgap ht h ih =>
    have hoffset := ht.position.offset
    intro u hu
    rcases List.mem_cons.1 hu with rfl | hu
    · omega
    · have hlater := ih u hu
      omega

/-- Tokens have text, and no two of them have a byte in common. -/
theorem Leads.apart {src : Bytes} {m n : Nat} {ts : List Token} (h : Leads src m ts n) :
    (∀ t ∈ ts, t.text ≠ []) ∧
      ts.Pairwise fun (t u : Token) => t.position.offset + t.text.length ≤ u.position.offset := by
  induction h with
  | gap => simp
  | @token m k n t ts hle hgap ht h ih =>
    have hpos := ht.spells.length_pos
    have hoffset := ht.position.offset
    refine ⟨List.forall_mem_cons.2 ⟨List.ne_nil_of_length_pos hpos, ih.1⟩, .cons ?_ ih.2⟩
    intro u hu
    have hlater := h.le u hu
    omega

theorem Leads.spells {src : Bytes} {m n : Nat} {ts : List Token} (h : Leads src m ts n) :
    ∀ t ∈ ts, Token.Spells t.kind t.text := by
  induction h with
  | gap => simp
  | token _ _ ht _ ih => exact List.forall_mem_cons.2 ⟨ht.spells, ih⟩

theorem tokenize_spells (src : Bytes) : ∀ t ∈ (tokenize src).list, Token.Spells t.kind t.text := by
  obtain ⟨⟨n, hleads, -⟩, -⟩ := leads_tokenizeFrom (Nat.zero_le src.length)
  exact hleads.spells

/-- The tokens of a source are those that lead, with gaps between them, to where scanning has to
stop. They have text, and are one behind the other. A source has an unclosed string exactly if there
is a quote, where a token would have to start, that nothing closes. Behind the last token, there is
nothing more to be found. -/
theorem tokenize_spans (src : Bytes) :
    (∀ ts unclosed, (tokenize src).list = ts ∧ (tokenize src).unclosed = unclosed ↔
      ∃ n, Leads src 0 ts n ∧ Stops src n unclosed) ∧
    (∀ t ∈ (tokenize src).list, t.text ≠ []) ∧
    ((tokenize src).list.Pairwise fun (t u : Token) =>
      t.position.offset + t.text.length ≤ u.position.offset) ∧
    (∀ p, (tokenize src).unclosed = some p ↔
      ∃ ts n, Leads src 0 ts n ∧ src[n]? = some Byte.quote ∧
        ¬ Token.Closes (src.drop (n + 1)) ∧ p.At src n) ∧
    Token.scan (tokenize src).stop (src.drop (tokenize src).stop.offset) =
      .finished (tokenize src).stop := by
  have hstart : tokenize src = tokenizeFrom (.ofOffset src 0) (src.drop 0) := rfl
  obtain ⟨⟨n, hleads, hstops⟩, hstop⟩ := leads_tokenizeFrom (Nat.zero_le src.length)
  rw [← hstart] at hleads hstops hstop
  have honly : ∀ {ts unclosed k}, Leads src 0 ts k → Stops src k unclosed →
      (tokenize src).list = ts ∧ (tokenize src).unclosed = unclosed := by
    intro ts unclosed k hk hend
    obtain ⟨hbegins, hlist, hunclosed⟩ := hend.tokenizeFrom_eq
    rw [hstart, hk.tokenizeFrom_eq hbegins]
    refine ⟨?_, hunclosed⟩
    rw [Tokens.prepend, hlist, List.append_nil]
  refine ⟨fun ts unclosed => ⟨?_, ?_⟩, hleads.apart.1, hleads.apart.2, fun p => ⟨?_, ?_⟩, ?_⟩
  · rintro ⟨rfl, rfl⟩
    exact ⟨n, hleads, hstops⟩
  · rintro ⟨k, hk, hend⟩
    exact honly hk hend
  · intro hunclosed
    rw [hunclosed] at hstops
    cases hstops with
    | unclosed hquote hopen hp => exact ⟨_, n, hleads, hquote, hopen, hp⟩
  · rintro ⟨ts, k, hk, hquote, hopen, hp⟩
    exact (honly hk (.unclosed hquote hopen hp)).2
  · have hoffset : (tokenize src).stop.offset = src.length := by
      rw [hstop, Cursor.ofOffset, (Cursor.start_advance _).1, List.take_length]
    rw [hoffset, List.drop_length]
    rfl

/-- A string of two quotes that has a word right behind it, a comment with a quote in it, and a
string that a doubled quote does not close. -/
theorem tokenize_spans_unclosed :
    ∃ n, Leads (lit "\"\"\"\"\"\"a #\"\n :b \"c\"\"") 0
      [⟨.string, lit "\"\"\"\"\"\"", ⟨0, 1, 1⟩⟩, ⟨.word, lit "a", ⟨6, 1, 7⟩⟩,
        ⟨.symbol, lit ":b", ⟨12, 2, 2⟩⟩] n ∧
      Stops (lit "\"\"\"\"\"\"a #\"\n :b \"c\"\"") n (some ⟨15, 2, 5⟩) := by
  refine ((tokenize_spans _).1 _ _).1 ⟨?_, ?_⟩
  · cbv
  · cbv

end StackLang
