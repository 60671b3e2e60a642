import Mathlib
import StackLang.Proofs.Joining
import StackLang.Proofs.Verdict

/-!
# Sources that more lines complete

A source is incomplete exactly if it does not compile, but would with some more lines. A fault of a
token is there to stay, whatever follows. A string or a brace that is still open at the end can be
closed on the next line, and then nothing is wrong any more.

* `verdict_join`: a fault that more text cannot mend.
* `Token.splitLiteral_mend`, `tokenizeFrom_mend`: an open string that is closed on the next line.
* `closings`: as many closing braces as are wanted.
* `incomplete_iff_completable`: incomplete sources are those that more lines complete.
-/

namespace StackLang

/-! ## Faults that stay -/

theorem Token.check_final {opens : List Position} {t : Token} {e : ParseError}
    (h : t.check opens = .error e) : e.cause.incomplete = false := by
  unfold check at h
  split at h
  · split at h
    · cases h
    · cases h
      rfl
  · split at h
    · cases h
    · split at h
      · split at h
        · cases h
          rfl
        · cases h
      · cases h
  · cases h
    rfl
  · cases h

theorem foldlM_check_final {opens : List Position} {ts : List Token} {e : ParseError}
    (h : ts.foldlM Token.check opens = .error e) : e.cause.incomplete = false := by
  induction ts generalizing opens with
  | nil => cases h
  | cons t ts ih =>
    rw [List.foldlM_cons] at h
    cases hcheck : t.check opens with
    | error e' =>
      rw [hcheck] at h
      cases h
      exact Token.check_final hcheck
    | ok opens' =>
      rw [hcheck] at h
      exact ih h

theorem Tokens.endFault?_incomplete {ts : Tokens} {opens : List Position} {e : ParseError}
    (h : ts.endFault? opens = some e) : e.cause.incomplete = true := by
  unfold endFault? at h
  split at h
  · cases h
    rfl
  · cases h
    rfl
  · cases h

/-- The first token that has a fault is refused, whatever follows it. -/
theorem verdict_join {src : Bytes} {e : ParseError} (h : verdict src = some e)
    (hfinal : e.cause.incomplete = false) (t : Bytes) :
    verdict (src ++ Byte.newline :: t) = some e := by
  obtain ⟨more, hmore⟩ := (tokenizeFrom_join {} src t).1
  have hlist : (tokenize (src ++ Byte.newline :: t)).list = (tokenize src).list ++ more :=
    hmore.symm
  unfold verdict Tokens.fault? at h ⊢
  rw [hlist, List.foldlM_append]
  cases hcheck : (tokenize src).list.foldlM Token.check [] with
  | error e' =>
    rw [hcheck] at h
    exact h
  | ok opens =>
    rw [hcheck] at h
    have hincomplete := Tokens.endFault?_incomplete h
    rw [hfinal] at hincomplete
    cases hincomplete

/-! ## Closing a string -/

/-- A literal that nothing closes is closed by a quote on the next line. -/
theorem Token.splitLiteral_mend {s : Bytes} (h : splitLiteral s = none) {rest : Bytes}
    (hrest : ∀ r, rest ≠ Byte.quote :: r) :
    splitLiteral (s ++ Byte.newline :: Byte.quote :: rest) =
      some (s ++ [Byte.newline, Byte.quote], rest) := by
  have hquote : splitLiteral (Byte.quote :: rest) = some ([Byte.quote], rest) := by
    cases rest with
    | nil => rfl
    | cons b r =>
      have hb : b ≠ Byte.quote := fun heq => hrest r (heq ▸ rfl)
      simp [splitLiteral, hb]
  fun_induction splitLiteral s with
  | case1 => simp [splitLiteral, hquote, Byte.newline, Byte.quote]
  | case2 => cases h
  | case3 b hb => simp [splitLiteral, hquote, hb, Byte.newline, Byte.quote]
  | case4 r ih =>
    have hr := ih (Option.map_eq_none_iff.1 h)
    simp [splitLiteral, hr]
  | case5 => cases h
  | case6 b c r hb ih =>
    have hr := ih (Option.map_eq_none_iff.1 h)
    rw [List.cons_append] at hr
    simp [splitLiteral, hb, hr]

theorem Token.scan_mend {c c' : Cursor} {s : Bytes} {opening : Position}
    (h : scan c s = .unterminated opening c') {rest : Bytes} (hrest : ∀ r, rest ≠ Byte.quote :: r) :
    ∃ t c'', t.kind = .string ∧
      scan c (s ++ Byte.newline :: Byte.quote :: rest) = .token t c'' rest := by
  unfold scan at h ⊢
  simp only at h ⊢
  cases hgap : (splitGap false s).2 with
  | nil =>
    rw [hgap] at h
    cases h
  | cons b r =>
    rw [hgap] at h
    rw [splitGap_join_cons hgap]
    simp only [List.cons_append] at h ⊢
    by_cases hquote : b = Byte.quote
    · simp only [if_pos hquote] at h ⊢
      cases hliteral : splitLiteral r with
      | none =>
        rw [splitLiteral_mend hliteral hrest]
        exact ⟨_, _, rfl, rfl⟩
      | some literal =>
        rw [hliteral] at h
        cases h
    · simp only [if_neg hquote] at h
      cases h

/-- A source that leaves a string open has one more token with a quote on the next line. -/
theorem tokenizeFrom_mend {c : Cursor} {s : Bytes} {opening : Position}
    (h : (tokenizeFrom c s).unclosed = some opening) {rest : Bytes}
    (hrest : ∀ r, rest ≠ Byte.quote :: r) :
    ∃ t c', t.kind = .string ∧ tokenizeFrom c (s ++ Byte.newline :: Byte.quote :: rest) =
      (tokenizeFrom c' rest).prepend ((tokenizeFrom c s).list ++ [t]) := by
  induction hlength : s.length using Nat.strongRecOn generalizing c s with
  | ind n ih =>
    subst hlength
    generalize hscan : Token.scan c s = found
    cases found with
    | token t₁ c₁ s₁ =>
      rw [tokenizeFrom_token hscan] at h
      obtain ⟨t, c', hkind, hmend⟩ := ih _ (Token.scan_rest_length hscan) h rfl
      refine ⟨t, c', hkind, ?_⟩
      rw [tokenizeFrom_token hscan, tokenizeFrom_token (Token.scan_join hscan _), hmend]
      rfl
    | unterminated opening' c₁ =>
      obtain ⟨t, c', hkind, hmend⟩ := Token.scan_mend hscan hrest
      refine ⟨t, c', hkind, ?_⟩
      rw [tokenizeFrom_unterminated hscan, tokenizeFrom_token hmend]
      rfl
    | finished c₁ =>
      rw [tokenizeFrom_finished hscan] at h
      cases h

/-! ## Closing braces -/

/-- `n` closing braces, each with a space before it. -/
def closings : Nat → Bytes
  | 0 => []
  | n + 1 => lit " \x7d" ++ closings n

theorem closings_ne_quote (n : Nat) (r : Bytes) : closings n ≠ Byte.quote :: r := by
  intro h
  cases n with
  | zero => cases h
  | succ n =>
    have hhead : Byte.space = Byte.quote := (List.cons.inj h).1
    exact absurd hhead (by decide)

/-- A closing brace ends where the space before the next one starts. -/
theorem splitWord_closings (n : Nat) :
    Token.splitWord (0x7d :: closings n) = (lit "\x7d", closings n) := by
  cases n with
  | zero => rfl
  | succ n => rfl

theorem scan_closings (c : Cursor) (n : Nat) :
    ∃ p c', Token.scan c (closings (n + 1)) = .token ⟨.word, lit "\x7d", p⟩ c' (closings n) := by
  have hgap : Token.splitGap false (closings (n + 1)) = ([Byte.space], 0x7d :: closings n) := rfl
  have hne : (0x7d : UInt8) ≠ Byte.quote := by decide
  unfold Token.scan
  rw [hgap]
  simp only [if_neg hne, splitWord_closings]
  exact ⟨_, _, rfl⟩

/-- The tokens of `n` closing braces close `n` braces. -/
theorem check_closings (c : Cursor) (opens : List Position) :
    ((tokenizeFrom c (closings opens.length)).list.foldlM Token.check opens = .ok []) ∧
      (tokenizeFrom c (closings opens.length)).unclosed = none := by
  induction opens generalizing c with
  | nil =>
    have hfinished : Token.scan c [] = .finished c := rfl
    rw [List.length_nil, closings, tokenizeFrom_finished hfinished]
    exact ⟨rfl, rfl⟩
  | cons p opens ih =>
    obtain ⟨q, c', hscan⟩ := scan_closings c opens.length
    rw [List.length_cons, tokenizeFrom_token hscan]
    exact ih c'

/-! ## Completion -/

/-- Nothing is wrong with a source that closes, at its end, all braces that are open. -/
theorem verdict_closings {src : Bytes} {before : List Token} {c : Cursor} {opens : List Position}
    (htokens : tokenize src = (tokenizeFrom c (closings opens.length)).prepend before)
    (hcheck : before.foldlM Token.check [] = .ok opens) : verdict src = none := by
  obtain ⟨hclosed, hend⟩ := check_closings c opens
  have hall : (tokenize src).list.foldlM Token.check [] = .ok [] := by
    rw [htokens, Tokens.prepend, List.foldlM_append, hcheck]
    exact hclosed
  have hunclosed : (tokenize src).unclosed = none := by
    rw [htokens]
    exact hend
  rw [verdict, Tokens.fault?, hall]
  simp only [Tokens.endFault?, hunclosed]

/-- What is still open at the end of a source can be closed on the next line. -/
theorem exists_completion {src : Bytes} {e : ParseError} (h : verdict src = some e)
    (hincomplete : e.cause.incomplete = true) : ∃ t, verdict (src ++ Byte.newline :: t) = none := by
  unfold verdict Tokens.fault? at h
  cases hcheck : (tokenize src).list.foldlM Token.check [] with
  | error e' =>
    rw [hcheck] at h
    cases h
    rw [foldlM_check_final hcheck] at hincomplete
    cases hincomplete
  | ok opens =>
    cases hunclosed : (tokenize src).unclosed with
    | none =>
      have htokens := (tokenizeFrom_join {} src (closings opens.length)).2 hunclosed
      exact ⟨closings opens.length, verdict_closings htokens hcheck⟩
    | some opening =>
      -- The open string becomes a token of its own, which no brace depends on.
      obtain ⟨t, c, hkind, htokens⟩ := tokenizeFrom_mend hunclosed (closings_ne_quote opens.length)
      refine ⟨Byte.quote :: closings opens.length, verdict_closings htokens ?_⟩
      have hliteral : t.check opens = .ok opens := by simp only [Token.check, hkind]
      have hlist : (tokenizeFrom {} src).list.foldlM Token.check [] = .ok opens := hcheck
      rw [List.foldlM_append, hlist]
      show [t].foldlM Token.check opens = .ok opens
      rw [List.foldlM_cons, hliteral]
      rfl

theorem incomplete_iff_error (r : Registry) (src : Bytes) :
    incomplete src = true ↔ ∃ e, (compile r src).2 = .error e ∧ e.cause.incomplete = true := by
  unfold incomplete
  cases hresult : (compile {} src).2 with
  | ok program =>
    have hnone := compile_eq_ok_iff.1 ⟨program, hresult⟩
    simp [compile_eq_error_iff, hnone]
  | error e =>
    have hsome := compile_eq_error_iff.1 hresult
    simp [compile_eq_error_iff, hsome]

/-- Compiled with whatever names, a source fails as incomplete if and only if it does not compile,
but does so with some text behind a line break. If it fails for another reason, it fails with the
same error whatever text is put behind a line break. -/
theorem incomplete_iff_completable (r r' : Registry) (src : Bytes) :
    (incomplete src = true ↔ ∃ e, (compile r src).2 = .error e ∧ e.cause.incomplete = true) ∧
    (incomplete src = true ↔ (¬ ∃ program, (compile r src).2 = .ok program) ∧
      ∃ t program, (compile r' (src ++ Byte.newline :: t)).2 = .ok program) ∧
    ∀ e, (compile r src).2 = .error e → e.cause.incomplete = false →
      ∀ t, (compile r' (src ++ Byte.newline :: t)).2 = .error e := by
  refine ⟨incomplete_iff_error r src, ?_, ?_⟩
  · simp only [incomplete_iff_error r, compile_eq_ok_iff, compile_eq_error_iff]
    constructor
    · rintro ⟨e, he, hincomplete⟩
      refine ⟨?_, exists_completion he hincomplete⟩
      rw [he]
      exact Option.some_ne_none e
    · rintro ⟨hfails, t, hcompletes⟩
      obtain ⟨e, he⟩ := Option.ne_none_iff_exists'.1 hfails
      refine ⟨e, he, ?_⟩
      by_contra hfinal
      rw [verdict_join he (Bool.eq_false_iff.2 hfinal) t] at hcompletes
      cases hcompletes
  · intro e he hfinal t
    rw [compile_eq_error_iff] at he ⊢
    exact verdict_join he hfinal t

/-- A block breaks off in a string that ends in a doubled quote; and a number that is none stays so,
although a block and a string are open behind it. -/
theorem incomplete_iff_completable_open : ∃ e,
    incomplete (lit "\x7b \"a\"\"") = true ∧
    (∃ t program, (compile {} (lit "\x7b \"a\"\"" ++ Byte.newline :: t)).2 = .ok program) ∧
    (compile {} (lit "1x \x7b \"a")).2 = .error e ∧ e.cause.incomplete = false ∧
    ∀ t, (compile {} (lit "1x \x7b \"a" ++ Byte.newline :: t)).2 = .error e := by
  have hopen : incomplete (lit "\x7b \"a\"\"") = true := by cbv
  obtain ⟨e, he, hfinal⟩ : ∃ e, (compile {} (lit "1x \x7b \"a")).2 = .error e ∧
      e.cause.incomplete = false := ⟨_, by cbv, by cbv⟩
  have hmended := ((incomplete_iff_completable {} {} (lit "\x7b \"a\"\"")).2.1.1 hopen).2
  exact ⟨e, hopen, hmended, he, hfinal, (incomplete_iff_completable {} {} _).2.2 e he hfinal⟩

end StackLang
