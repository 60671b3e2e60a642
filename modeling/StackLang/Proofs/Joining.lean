import StackLang.Proofs.Tree

/-!
# Sources joined by a line break

A line break ends a comment and a word, and it closes no string. So if the first of two sources
leaves no string open, the tokens of both with a line break between them are those of the one and
then those of the other, and they read as the two trees one behind the other.

* `Token.scan_join`, `Token.scan_join_finished`: scanning the first of the two sources.
* `tokenizeFrom_join`: the tokens of the joined source.
* `lexemesFrom?_cursor`: what a source says is independent of where it stands.
* `ofSource?_join`: the tree of the joined source.
-/

namespace StackLang

/-- Tokens with others in front of them. -/
def Tokens.prepend (ts : Tokens) (before : List Token) : Tokens :=
  { ts with list := before ++ ts.list }

namespace Token

/-! ## Splitting -/

/-- A gap that reaches the line break goes on behind it, outside of any comment. -/
theorem splitGap_join_nil {inComment : Bool} {s : Bytes} (h : (splitGap inComment s).2 = [])
    (s' : Bytes) :
    splitGap inComment (s ++ Byte.newline :: s') =
      (s ++ Byte.newline :: (splitGap false s').1, (splitGap false s').2) := by
  fun_induction splitGap inComment s with
  | case1 inComment => cases inComment <;> simp [splitGap, Byte.isSpace, Byte.newline]
  | case2 b s gap rest heq ih => simp [splitGap, ih (by rw [heq]; exact h)]
  | case3 inComment b s hcomment hspace gap rest heq ih =>
    simp [splitGap, hcomment, hspace, ih (by rw [heq]; exact h)]
  | case4 inComment s hcomment gap rest heq hspace ih =>
    simp [splitGap, hcomment, hspace, ih (by rw [heq]; exact h)]
  | case5 => cases h

/-- A gap that ends before the line break is what it is without it. -/
theorem splitGap_join_cons {inComment : Bool} {s r : Bytes} {b : UInt8}
    (h : (splitGap inComment s).2 = b :: r) (s' : Bytes) :
    splitGap inComment (s ++ s') = ((splitGap inComment s).1, b :: r ++ s') := by
  fun_induction splitGap inComment s with
  | case1 => cases h
  | case2 b s gap rest heq ih =>
    rw [heq] at ih
    simp [splitGap, ih h]
  | case3 inComment b s hcomment hspace gap rest heq ih =>
    rw [heq] at ih
    simp [splitGap, hcomment, hspace, ih h]
  | case4 inComment s hcomment gap rest heq hspace ih =>
    rw [heq] at ih
    simp [splitGap, hcomment, hspace, ih h]
  | case5 inComment b s hcomment hspace hhash =>
    cases h
    simp [splitGap, hcomment, hspace, hhash]

/-- A literal that is closed stays closed: a line break is no quote. -/
theorem splitLiteral_join {s body rest : Bytes} (h : splitLiteral s = some (body, rest))
    (s' : Bytes) :
    splitLiteral (s ++ Byte.newline :: s') = some (body, rest ++ Byte.newline :: s') := by
  fun_induction splitLiteral s generalizing body rest with
  | case1 => cases h
  | case2 =>
    cases h
    simp [splitLiteral, Byte.newline, Byte.quote]
  | case3 => cases h
  | case4 r ih =>
    obtain ⟨⟨body', rest'⟩, h', heq⟩ := Option.map_eq_some_iff.1 h
    cases heq
    simp [splitLiteral, ih h']
  | case5 c r hc =>
    cases h
    simp [splitLiteral, hc]
  | case6 b c r hb ih =>
    obtain ⟨⟨body', rest'⟩, h', heq⟩ := Option.map_eq_some_iff.1 h
    cases heq
    have hjoin := ih h'
    rw [List.cons_append] at hjoin
    simp [splitLiteral, hb, hjoin]

/-- A line break ends a word. -/
theorem splitWord_join (s s' : Bytes) :
    splitWord (s ++ Byte.newline :: s') =
      ((splitWord s).1, (splitWord s).2 ++ Byte.newline :: s') := by
  unfold splitWord
  induction s with
  | nil => simp [Byte.isSpace, Byte.newline]
  | cons b s ih =>
    rw [Prod.mk.injEq] at ih
    by_cases hspace : Byte.isSpace b
    · simp [hspace]
    · simp [hspace, ih.1, ih.2]

/-! ## Scanning -/

/-- A token of the first source is found as before. -/
theorem scan_join {c c' : Cursor} {s rest : Bytes} {t : Token} (h : scan c s = .token t c' rest)
    (s' : Bytes) :
    scan c (s ++ Byte.newline :: s') = .token t c' (rest ++ Byte.newline :: s') := by
  unfold scan at h ⊢
  simp only at h ⊢
  cases hgap : (splitGap false s).2 with
  | nil =>
    rw [hgap] at h
    cases h
  | cons b r =>
    rw [hgap] at h
    rw [splitGap_join_cons hgap]
    simp only [List.cons_append] at h ⊢
    by_cases hquote : b = Byte.quote
    · simp only [if_pos hquote] at h ⊢
      cases hliteral : splitLiteral r with
      | none =>
        rw [hliteral] at h
        cases h
      | some literal =>
        rw [hliteral] at h
        rw [splitLiteral_join hliteral]
        cases h
        rfl
    · simp only [if_neg hquote] at h ⊢
      rw [← List.cons_append, splitWord_join]
      cases h
      rfl

/-- At the end of the first source, the second one is scanned from its start. -/
theorem scan_join_finished {c c' : Cursor} {s : Bytes} (h : scan c s = .finished c') (s' : Bytes) :
    scan c (s ++ Byte.newline :: s') = scan (c'.next Byte.newline) s' := by
  unfold scan at h ⊢
  simp only at h ⊢
  cases hgap : (splitGap false s).2 with
  | nil =>
    have happend := splitGap_append false s
    rw [hgap, List.append_nil] at happend
    rw [hgap, happend] at h
    rw [splitGap_join_nil hgap]
    cases h
    simp only [Cursor.advance, List.foldl_append, List.foldl_cons]
  | cons b r =>
    rw [hgap] at h
    simp only at h
    split at h
    · split at h <;> cases h
    · cases h

/-- Scans that find the same text. -/
inductive Scan.Same : Scan → Scan → Prop
  | token {t t' : Token} {c c' : Cursor} {rest : Bytes} (hkind : t.kind = t'.kind)
    (htext : t.text = t'.text) : Same (.token t c rest) (.token t' c' rest)
  | unterminated {p p' : Position} {c c' : Cursor} : Same (.unterminated p c) (.unterminated p' c')
  | finished {c c' : Cursor} : Same (.finished c) (.finished c')

/-- What is found is independent of where the scanner stands. -/
theorem scan_same (c c' : Cursor) (s : Bytes) : (scan c s).Same (scan c' s) := by
  unfold scan
  simp only
  cases (splitGap false s).2 with
  | nil => exact .finished
  | cons b r =>
    simp only
    split
    · cases splitLiteral r with
      | none => exact .unterminated
      | some literal => exact .token rfl rfl
    · exact .token rfl rfl

end Token

/-! ## Tokens -/

theorem tokenizeFrom_token {c c' : Cursor} {s rest : Bytes} {t : Token}
    (h : Token.scan c s = .token t c' rest) :
    tokenizeFrom c s = (tokenizeFrom c' rest).cons t := by
  rw [tokenizeFrom]
  split <;> simp_all

theorem tokenizeFrom_unterminated {c c' : Cursor} {s : Bytes} {opening : Position}
    (h : Token.scan c s = .unterminated opening c') :
    tokenizeFrom c s = ⟨[], some opening, c'⟩ := by
  rw [tokenizeFrom]
  split <;> simp_all

theorem tokenizeFrom_finished {c c' : Cursor} {s : Bytes} (h : Token.scan c s = .finished c') :
    tokenizeFrom c s = ⟨[], none, c'⟩ := by
  rw [tokenizeFrom]
  split <;> simp_all

theorem tokenizeFrom_congr {c c' : Cursor} {s s' : Bytes} (h : Token.scan c s = Token.scan c' s') :
    tokenizeFrom c s = tokenizeFrom c' s' := by
  rw [tokenizeFrom, tokenizeFrom]
  split <;> split <;> simp_all

/-- The tokens of a joined source start with those of the first source. If that leaves no string
open, the others are those of the second source, which starts on the next line. -/
theorem tokenizeFrom_join (c : Cursor) (s s' : Bytes) :
    (tokenizeFrom c s).list <+: (tokenizeFrom c (s ++ Byte.newline :: s')).list ∧
      ((tokenizeFrom c s).unclosed = none →
        tokenizeFrom c (s ++ Byte.newline :: s') =
          (tokenizeFrom ((tokenizeFrom c s).stop.next Byte.newline) s').prepend
            (tokenizeFrom c s).list) := by
  induction hlength : s.length using Nat.strongRecOn generalizing c s with
  | ind n ih =>
    subst hlength
    generalize hscan : Token.scan c s = found
    cases found with
    | token t c' rest =>
      obtain ⟨hinitial, hclosed⟩ := ih _ (Token.scan_rest_length hscan) c' rest rfl
      rw [tokenizeFrom_token hscan, tokenizeFrom_token (Token.scan_join hscan s')]
      refine ⟨List.cons_prefix_cons.2 ⟨rfl, hinitial⟩, ?_⟩
      intro hnone
      rw [hclosed hnone]
      rfl
    | unterminated opening c' =>
      rw [tokenizeFrom_unterminated hscan]
      refine ⟨List.nil_prefix, ?_⟩
      intro hnone
      cases hnone
    | finished c' =>
      rw [tokenizeFrom_finished hscan, tokenizeFrom_congr (Token.scan_join_finished hscan s')]
      exact ⟨List.nil_prefix, fun _ => rfl⟩

namespace Tree

/-! ## Lexemes -/

/-- What the tokens of a source say that starts at the cursor `c`. -/
def lexemesFrom? (c : Cursor) (src : Bytes) : Option (List Lexeme) :=
  match (tokenizeFrom c src).unclosed with
  | some _ => none
  | none => (tokenizeFrom c src).list.mapM Lexeme.ofToken?

theorem lexemesFrom?_token {c c' : Cursor} {s rest : Bytes} {t : Token}
    (h : Token.scan c s = .token t c' rest) :
    lexemesFrom? c s =
      (Lexeme.ofToken? t).bind fun l => (lexemesFrom? c' rest).map fun ls => l :: ls := by
  rw [lexemesFrom?, lexemesFrom?, tokenizeFrom_token h, Tokens.cons]
  cases (tokenizeFrom c' rest).unclosed with
  | none =>
    simp only [List.mapM_cons]
    cases Lexeme.ofToken? t with
    | none => rfl
    | some l => cases (tokenizeFrom c' rest).list.mapM Lexeme.ofToken? <;> rfl
  | some opening => cases Lexeme.ofToken? t <;> rfl

theorem lexemesFrom?_unterminated {c c' : Cursor} {s : Bytes} {opening : Position}
    (h : Token.scan c s = .unterminated opening c') : lexemesFrom? c s = none := by
  rw [lexemesFrom?, tokenizeFrom_unterminated h]

theorem lexemesFrom?_finished {c c' : Cursor} {s : Bytes}
    (h : Token.scan c s = .finished c') : lexemesFrom? c s = some [] := by
  rw [lexemesFrom?, tokenizeFrom_finished h]
  rfl

/-- What a source says is independent of where it stands. -/
theorem lexemesFrom?_cursor (c c' : Cursor) (s : Bytes) : lexemesFrom? c s = lexemesFrom? c' s := by
  induction hlength : s.length using Nat.strongRecOn generalizing c c' s with
  | ind n ih =>
    subst hlength
    have hsame := Token.scan_same c c' s
    generalize hscan : Token.scan c s = found at hsame
    generalize hscan' : Token.scan c' s = found' at hsame
    cases hsame with
    | @token t t' c₁ c₁' rest hkind htext =>
      have hsays : Lexeme.ofToken? t = Lexeme.ofToken? t' := by
        rw [Lexeme.ofToken?, Lexeme.ofToken?, hkind, htext]
      rw [lexemesFrom?_token hscan, lexemesFrom?_token hscan', hsays,
        ih _ (Token.scan_rest_length hscan) c₁ c₁' rest rfl]
    | unterminated => rw [lexemesFrom?_unterminated hscan, lexemesFrom?_unterminated hscan']
    | finished => rw [lexemesFrom?_finished hscan, lexemesFrom?_finished hscan']

theorem lexemesFrom?_start (src : Bytes) : lexemesFrom? {} src = lexemes? src := rfl

/-- What the second source says comes behind what the first one says. -/
theorem lexemesFrom?_join {c : Cursor} {s : Bytes} {ls : List Lexeme}
    (h : lexemesFrom? c s = some ls) (s' : Bytes) :
    lexemesFrom? c (s ++ Byte.newline :: s') = (lexemes? s').map (ls ++ ·) := by
  induction hlength : s.length using Nat.strongRecOn generalizing c s ls with
  | ind n ih =>
    subst hlength
    generalize hscan : Token.scan c s = found
    cases found with
    | token t c' rest =>
      rw [lexemesFrom?_token hscan, Option.bind_eq_some_iff] at h
      obtain ⟨l, hl, hrest⟩ := h
      obtain ⟨ls, hls, rfl⟩ := Option.map_eq_some_iff.1 hrest
      rw [lexemesFrom?_token (Token.scan_join hscan s'), hl, Option.bind_some,
        ih _ (Token.scan_rest_length hscan) hls rfl, Option.map_map]
      rfl
    | unterminated opening c' =>
      rw [lexemesFrom?_unterminated hscan] at h
      cases h
    | finished c' =>
      rw [lexemesFrom?_finished hscan] at h
      cases h
      have hfrom : lexemesFrom? c (s ++ Byte.newline :: s') =
          lexemesFrom? (c'.next Byte.newline) s' := by
        unfold lexemesFrom?
        rw [tokenizeFrom_congr (Token.scan_join_finished hscan s')]
      rw [hfrom, lexemesFrom?_cursor _ {}, lexemesFrom?_start]
      simp

/-! ## Reading -/

/-- Put items in front of all others, beneath the braces that are open. -/
def beneath (front items : List Item) : List (List Item) → List Item × List (List Item)
  | [] => (front ++ items, [])
  | before :: opens => (items, (beneath front before opens).1 :: (beneath front before opens).2)

theorem beneath_concat (front items : List Item) (opens : List (List Item)) (item : Item) :
    beneath front (items ++ [item]) opens =
      ((beneath front items opens).1 ++ [item], (beneath front items opens).2) := by
  cases opens with
  | nil => simp [beneath]
  | cons before opens => simp [beneath]

/-- Items that were read before are left alone. -/
theorem read_beneath (front : List Item) (next : Nat) (items : List Item)
    (opens : List (List Item)) (ls : List Lexeme) :
    read next (beneath front items opens).1 (beneath front items opens).2 ls =
      (read next items opens ls).map (front ++ ·) := by
  fun_induction read next items opens ls with
  | case1 next items opens hopens =>
    rw [List.isEmpty_iff] at hopens
    simp [hopens, beneath, read]
  | case2 next items opens hopens =>
    cases opens with
    | nil => simp at hopens
    | cons before opens => simp [beneath, read]
  | case3 next items opens a ls ih => rw [read, ← ih, beneath_concat]
  | case4 next items opens ls ih =>
    rw [read, ← ih]
    rfl
  | case5 next items ls => simp [beneath, read]
  | case6 next items ls before opens ih =>
    rw [beneath, read, ← ih, beneath_concat]

/-- Once all braces are closed, reading goes on behind the tree. -/
theorem read_append {first next : Nat} {items tree : List Item} {opens : List (List Item)}
    {ls : List Lexeme} (h : read next items opens ls = some tree)
    (hnext : next = first + (blocksSoFar items opens).length) (ls' : List Lexeme) :
    read next items opens (ls ++ ls') = read (first + (blocks tree).length) tree [] ls' := by
  fun_induction read next items opens ls with
  | case1 next items opens hopens =>
    cases h
    rw [List.isEmpty_iff] at hopens
    rw [hnext, hopens]
    rfl
  | case2 => cases h
  | case3 next items opens a ls ih =>
    rw [List.cons_append, read]
    exact ih h (by simpa [blocksSoFar_append, blocks, Item.blocks] using hnext)
  | case4 next items opens ls ih =>
    rw [List.cons_append, read]
    exact ih h (by simpa [blocksSoFar, blocks] using hnext)
  | case5 => cases h
  | case6 next items ls before opens ih =>
    rw [List.cons_append, read]
    refine ih h ?_
    rw [blocksSoFar_close, List.length_append, List.length_singleton, hnext, Nat.add_assoc]

/-- Two sources with a line break between them read as two trees, one behind the other. -/
theorem ofSource?_join {first : Nat} {src₁ src₂ : Bytes} {tree₁ tree₂ : List Item}
    (h₁ : ofSource? first src₁ = some tree₁)
    (h₂ : ofSource? (first + (blocks tree₁).length) src₂ = some tree₂) :
    ofSource? first (src₁ ++ Byte.newline :: src₂) = some (tree₁ ++ tree₂) := by
  obtain ⟨ls₁, hls₁, hread₁⟩ := Option.bind_eq_some_iff.1 h₁
  obtain ⟨ls₂, hls₂, hread₂⟩ := Option.bind_eq_some_iff.1 h₂
  have hjoin : lexemes? (src₁ ++ Byte.newline :: src₂) = some (ls₁ ++ ls₂) := by
    rw [← lexemesFrom?_start] at hls₁ ⊢
    rw [lexemesFrom?_join hls₁, hls₂]
    rfl
  have hbehind := read_beneath tree₁ (first + (blocks tree₁).length) [] [] ls₂
  rw [hread₂, beneath, List.append_nil] at hbehind
  rw [ofSource?, hjoin, Option.bind_some, read_append hread₁ rfl, hbehind]
  rfl

end Tree

end StackLang
