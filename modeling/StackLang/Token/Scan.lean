import StackLang.Token

/-!
# Scanning

A source is a sequence of tokens with gaps between them. A gap is made of white space and comments,
which run from a hash sign to the end of the line. A string token ends at its closing quote, every
other token at the next white space.

* `scan` finds the next token of a text and leaves a shorter rest (`scan_rest_length`).
* `tokenize` gives all tokens of a source, and where it ended.
-/

namespace StackLang

/-- Where a scanner stands: the bytes it has passed, its line, and the offset of that line. -/
structure Cursor where
  offset : Nat := 0
  line : Nat := 1
  lineStart : Nat := 0
deriving DecidableEq, Repr

namespace Cursor

def next (c : Cursor) (b : UInt8) : Cursor :=
  if b = Byte.newline then ⟨c.offset + 1, c.line + 1, c.offset + 1⟩
  else { c with offset := c.offset + 1 }

/-- The cursor after a text. -/
def advance (c : Cursor) (s : Bytes) : Cursor := s.foldl next c

def position (c : Cursor) : Position := ⟨c.offset, c.line, c.offset - c.lineStart + 1⟩

end Cursor

namespace Token

/-! ## Splitting a text -/

/-- The leading gap of a text, and the text after it; `inComment` says whether it starts within a
comment. -/
def splitGap : (inComment : Bool) → Bytes → Bytes × Bytes
  | _, [] => ([], [])
  | inComment, b :: r =>
    if inComment then
      let (gap, rest) := splitGap (b != Byte.newline) r
      (b :: gap, rest)
    else if Byte.isSpace b then
      let (gap, rest) := splitGap false r
      (b :: gap, rest)
    else if b = Byte.hash then
      let (gap, rest) := splitGap true r
      (b :: gap, rest)
    else ([], b :: r)

theorem splitGap_append (inComment : Bool) (s : Bytes) :
    (splitGap inComment s).1 ++ (splitGap inComment s).2 = s := by
  induction s generalizing inComment with
  | nil => simp [splitGap]
  | cons b r ih =>
    unfold splitGap
    split
    · simp [ih]
    · split
      · simp [ih]
      · split <;> simp [ih]

/-- A gap is as long as it can be. -/
theorem splitGap_rest {inComment : Bool} {s r : Bytes} {b : UInt8}
    (h : (splitGap inComment s).2 = b :: r) : Byte.isSpace b = false ∧ b ≠ Byte.hash := by
  induction s generalizing inComment with
  | nil => simp [splitGap] at h
  | cons a s ih =>
    unfold splitGap at h
    split at h
    · exact ih h
    · split at h
      · exact ih h
      · split at h
        · exact ih h
        · rename_i hspace hhash
          cases h
          exact ⟨by simpa using hspace, hhash⟩

/-- What follows an opening quote, up to and with the closing quote, and the text after it. A quote
that is followed by another one does not close. -/
def splitLiteral : Bytes → Option (Bytes × Bytes)
  | [] => none
  | [b] => if b = Byte.quote then some ([b], []) else none
  | b :: c :: r =>
    if b = Byte.quote then
      if c = Byte.quote then
        (splitLiteral r).map fun (body, rest) => (b :: c :: body, rest)
      else some ([b], c :: r)
    else (splitLiteral (c :: r)).map fun (body, rest) => (b :: body, rest)

theorem splitLiteral_append {s body rest : Bytes} (h : splitLiteral s = some (body, rest)) :
    body ++ rest = s := by
  fun_induction splitLiteral s generalizing body rest with
  | case1 => cases h
  | case2 => cases h; rfl
  | case3 => cases h
  | case4 r ih =>
    obtain ⟨⟨body', rest'⟩, h', heq⟩ := Option.map_eq_some_iff.1 h
    cases heq
    simp [ih h']
  | case5 => cases h; rfl
  | case6 b c r hb ih =>
    obtain ⟨⟨body', rest'⟩, h', heq⟩ := Option.map_eq_some_iff.1 h
    cases heq
    simp [ih h']

/-- The bytes before the first white space, and the text from there on. -/
def splitWord (s : Bytes) : Bytes × Bytes :=
  (s.takeWhile fun b => !Byte.isSpace b, s.dropWhile fun b => !Byte.isSpace b)

theorem splitWord_append (s : Bytes) : (splitWord s).1 ++ (splitWord s).2 = s :=
  List.takeWhile_append_dropWhile

/-! ## Scanning a source -/

/-- What a scan finds: a token and the text after it, an opening quote that nothing closes, or the
end of the source. -/
inductive Scan where
  | token (t : Token) (c : Cursor) (rest : Bytes)
  | unterminated (opening : Position) (c : Cursor)
  | finished (c : Cursor)
deriving DecidableEq, Repr

/-- The next token at or after the cursor `c`, which stands at the start of `s`. -/
def scan (c : Cursor) (s : Bytes) : Scan :=
  let (gap, s) := splitGap false s
  let c := c.advance gap
  match s with
  | [] => .finished c
  | b :: r =>
    if b = Byte.quote then
      match splitLiteral r with
      | none => .unterminated c.position (c.advance (b :: r))
      | some (body, rest) =>
        .token ⟨.string, b :: body, c.position⟩ (c.advance (b :: body)) rest
    else
      let (word, rest) := splitWord (b :: r)
      .token ⟨Kind.ofFirst b, word, c.position⟩ (c.advance word) rest

theorem scan_rest_length {c c' : Cursor} {s rest : Bytes} {t : Token}
    (h : scan c s = .token t c' rest) : rest.length < s.length := by
  have hs := congrArg List.length (splitGap_append false s)
  unfold scan at h
  simp only at h
  split at h
  · cases h
  · rename_i b r heq
    rw [heq] at hs
    split at h
    · split at h
      · cases h
      · rename_i body rest' hbody
        cases h
        have := congrArg List.length (splitLiteral_append hbody)
        simp at hs this
        omega
    · cases h
      have hspace := (splitGap_rest heq).1
      simp [splitWord, hspace] at hs ⊢
      have := (List.dropWhile_suffix (l := r) fun b => !Byte.isSpace b).length_le
      omega

end Token

/-- All tokens of a source in order. `unclosed` is the position of an opening quote that nothing
closes, where scanning stopped. -/
structure Tokens where
  list : List Token
  unclosed : Option Position
  stop : Cursor
deriving DecidableEq, Repr

namespace Tokens

def cons (t : Token) (ts : Tokens) : Tokens := { ts with list := t :: ts.list }

end Tokens

/-- The tokens of `s` from the cursor `c` on. -/
def tokenizeFrom (c : Cursor) (s : Bytes) : Tokens :=
  match h : Token.scan c s with
  | .token t c' rest =>
    have := Token.scan_rest_length h
    (tokenizeFrom c' rest).cons t
  | .unterminated opening c' => ⟨[], some opening, c'⟩
  | .finished c' => ⟨[], none, c'⟩
termination_by s.length

def tokenize (src : Bytes) : Tokens := tokenizeFrom {} src

end StackLang
