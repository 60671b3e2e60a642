import Mathlib
import StackLang.Proofs.Spans

/-!
# Positions in joined sources

A scanner that starts further down finds the same tokens, only further down. So behind another
source and a line break, a source has the tokens it has alone, with their offsets and lines moved by
what is in front of them. Columns stay, since a source starts at the start of a line either way.

* `Position.shift`, `Cursor.shift`, `Tokens.shift`: moving down.
* `Token.scan_shift`, `tokenizeFrom_shift`: scanning from further down.
* `tokenize_join`: the tokens of two sources with a line break between them.
-/

namespace StackLang

/-! ## Moving down -/

/-- The position `bytes` and `lines` further down, in the same column. -/
def Position.shift (bytes lines : Nat) (p : Position) : Position :=
  { p with offset := p.offset + bytes, line := p.line + lines }

def Token.shift (bytes lines : Nat) (t : Token) : Token :=
  { t with position := t.position.shift bytes lines }

def Cursor.shift (bytes lines : Nat) (c : Cursor) : Cursor :=
  ⟨c.offset + bytes, c.line + lines, c.lineStart + bytes⟩

def Tokens.shift (bytes lines : Nat) (ts : Tokens) : Tokens :=
  ⟨ts.list.map (Token.shift bytes lines), ts.unclosed.map (Position.shift bytes lines),
    ts.stop.shift bytes lines⟩

/-- What is found from further down. -/
def Token.Scan.shift (bytes lines : Nat) : Scan → Scan
  | token t c rest => token (t.shift bytes lines) (c.shift bytes lines) rest
  | unterminated opening c => unterminated (opening.shift bytes lines) (c.shift bytes lines)
  | finished c => finished (c.shift bytes lines)

variable (bytes lines : Nat)

namespace Cursor

theorem next_shift (c : Cursor) (b : UInt8) :
    (c.shift bytes lines).next b = (c.next b).shift bytes lines := by
  unfold next shift
  split
  · simp only [Cursor.mk.injEq]
    omega
  · exact congrArg (Cursor.mk · _ _) (Nat.add_right_comm _ _ _)

theorem advance_shift (c : Cursor) (s : Bytes) :
    (c.shift bytes lines).advance s = (c.advance s).shift bytes lines := by
  induction s generalizing c with
  | nil => rfl
  | cons b s ih =>
    show ((c.shift bytes lines).next b).advance s = ((c.next b).advance s).shift bytes lines
    rw [next_shift, ih]

/-- The line and its start move together, so the column stays. -/
theorem position_shift (c : Cursor) :
    (c.shift bytes lines).position = c.position.shift bytes lines := by
  unfold position shift Position.shift
  simp only [Position.mk.injEq]
  omega

end Cursor

/-! ## Scanning from further down -/

theorem Token.scan_shift (c : Cursor) (s : Bytes) :
    scan (c.shift bytes lines) s = (scan c s).shift bytes lines := by
  unfold scan
  simp only [Cursor.advance_shift, Cursor.position_shift]
  cases (splitGap false s).2 with
  | nil => rfl
  | cons b r =>
    simp only
    split
    · cases splitLiteral r with
      | none => rfl
      | some literal => rfl
    · rfl

theorem tokenizeFrom_shift (c : Cursor) (s : Bytes) :
    tokenizeFrom (c.shift bytes lines) s = (tokenizeFrom c s).shift bytes lines := by
  induction hlength : s.length using Nat.strongRecOn generalizing c s with
  | ind n ih =>
    subst hlength
    have hshift := Token.scan_shift bytes lines c s
    generalize hscan : Token.scan c s = found at hshift
    cases found with
    | token t c' rest =>
      rw [tokenizeFrom_token hscan, tokenizeFrom_token hshift,
        ih _ (Token.scan_rest_length hscan) c' rest rfl]
      rfl
    | unterminated opening c' =>
      rw [tokenizeFrom_unterminated hscan, tokenizeFrom_unterminated hshift]
      rfl
    | finished c' =>
      rw [tokenizeFrom_finished hscan, tokenizeFrom_finished hshift]
      rfl

/-! ## Joined sources -/

/-- A scanner that has passed a source and a line break stands at the start of a line. -/
theorem tokenize_stop_next (s : Bytes) :
    (tokenize s).stop.next Byte.newline =
      Cursor.shift (s.length + 1) (1 + s.count Byte.newline) {} := by
  have hstop : (tokenize s).stop = Cursor.advance {} s := by
    have hend : Cursor.ofOffset s s.length = Cursor.advance {} s := by
      rw [Cursor.ofOffset, List.take_length]
    rw [← hend]
    exact (leads_tokenizeFrom (Nat.zero_le s.length)).2
  obtain ⟨hoffset, hline, -⟩ := Cursor.start_advance s
  rw [hstop, Cursor.next, if_pos rfl, Cursor.shift, hoffset, hline]
  simp only [Cursor.mk.injEq]
  omega

/-- Let a source leave no string open. With a line break and another source behind it, its tokens are
followed by those of the other one, which are moved down by the length of the first source and the
line break, and by as many lines as that ends. A string is left open exactly if the other source
leaves one open, and at the place that its quote is moved to; and scanning stops where it would stop
there. -/
theorem tokenize_join {s : Bytes} (h : (tokenize s).unclosed = none) (s' : Bytes) :
    (tokenize (s ++ Byte.newline :: s')).list =
        (tokenize s).list ++
          (tokenize s').list.map (Token.shift (s.length + 1) (1 + s.count Byte.newline)) ∧
      (tokenize (s ++ Byte.newline :: s')).unclosed =
        (tokenize s').unclosed.map (Position.shift (s.length + 1) (1 + s.count Byte.newline)) ∧
      (tokenize (s ++ Byte.newline :: s')).stop =
        (tokenize s').stop.shift (s.length + 1) (1 + s.count Byte.newline) := by
  have hjoin : tokenize (s ++ Byte.newline :: s') =
      (tokenizeFrom ((tokenize s).stop.next Byte.newline) s').prepend (tokenize s).list :=
    (tokenizeFrom_join {} s s').2 h
  rw [tokenize_stop_next, tokenizeFrom_shift] at hjoin
  rw [hjoin]
  exact ⟨rfl, rfl, rfl⟩

/-- A string over two lines and a comment with a quote in it, and behind them a string that nothing
closes. -/
theorem tokenize_join_unclosed :
    (tokenize (lit "\"a\nb\"c #\"\n\"\" \"d")).list =
        [⟨.string, lit "\"a\nb\"", ⟨0, 1, 1⟩⟩, ⟨.word, lit "c", ⟨5, 2, 3⟩⟩,
          ⟨.string, lit "\"\"", ⟨10, 3, 1⟩⟩] ∧
      (tokenize (lit "\"a\nb\"c #\"\n\"\" \"d")).unclosed = some ⟨13, 3, 4⟩ := by
  have hfirst : tokenize (lit "\"a\nb\"c #\"") = ⟨[⟨.string, lit "\"a\nb\"", ⟨0, 1, 1⟩⟩,
      ⟨.word, lit "c", ⟨5, 2, 3⟩⟩], none, ⟨9, 2, 3⟩⟩ := by
    cbv
  have hsecond : tokenize (lit "\"\" \"d") = ⟨[⟨.string, lit "\"\"", ⟨0, 1, 1⟩⟩],
      some ⟨3, 1, 4⟩, ⟨5, 1, 0⟩⟩ := by
    cbv
  have hsource : lit "\"a\nb\"c #\"\n\"\" \"d" =
      lit "\"a\nb\"c #\"" ++ Byte.newline :: lit "\"\" \"d" := by
    decide +kernel
  obtain ⟨hlist, hunclosed, -⟩ := tokenize_join (congrArg Tokens.unclosed hfirst) (lit "\"\" \"d")
  rw [← hsource, hsecond] at hlist hunclosed
  rw [hfirst] at hlist
  exact ⟨hlist, hunclosed⟩

end StackLang
