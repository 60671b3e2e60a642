import Mathlib
import StackLang.Proofs.Readback
import StackLang.Proofs.Spans

/-!
# Literals and the strings they denote

A string has one literal, and a literal denotes one string. Runs of quotes are where this could go
wrong: a scanner pairs them from the left, and the quotes that delimit a literal may stand next to
quotes of the string.

* `Literal.paired_iff`, `Literal.spells_iff`: the texts of string tokens are the literals.
* `Literal.quote_unquote`: such a text is the literal of the string that it denotes.
* `Literal.tokenize_quote`: a literal is scanned as one token.
* `Literal.literals_match_strings`: literals and strings belong together one to one.
-/

namespace StackLang.Literal

/-! ## Pairs of quotes -/

/-- Where all quotes stand in pairs, halving them loses nothing. -/
theorem doubleQuotes_halveQuotes {s : Bytes} (h : Token.Paired s) :
    doubleQuotes (halveQuotes s) = s := by
  induction h with
  | nil => rfl
  | byte hb _ ih => rw [halveQuotes_byte hb, doubleQuotes, if_neg hb, ih]
  | pair _ ih => simp [halveQuotes, doubleQuotes, ih]

theorem paired_iff {s : Bytes} : Token.Paired s ↔ ∃ t, s = doubleQuotes t := by
  constructor
  · intro h
    exact ⟨halveQuotes s, (doubleQuotes_halveQuotes h).symm⟩
  · rintro ⟨t, rfl⟩
    exact paired_doubleQuotes t

/-! ## Literals -/

/-- The texts of string tokens are the literals of strings. -/
theorem spells_iff {text : Bytes} : Token.Spells .string text ↔ ∃ s, text = quote s := by
  constructor
  · rintro ⟨hbody⟩
    obtain ⟨s, rfl⟩ := paired_iff.1 hbody
    exact ⟨s, rfl⟩
  · rintro ⟨s, rfl⟩
    exact .string (paired_doubleQuotes s)

theorem quote_unquote {text : Bytes} (h : Token.Spells .string text) :
    quote (unquote text) = text := by
  obtain ⟨s, rfl⟩ := spells_iff.1 h
  rw [unquote_quote]

theorem unquote_inj {text text' : Bytes} (h : Token.Spells .string text)
    (h' : Token.Spells .string text') : unquote text = unquote text' ↔ text = text' := by
  constructor
  · intro heq
    rw [← quote_unquote h, heq, quote_unquote h']
  · exact congrArg unquote

/-! ## Scanning -/

/-- A literal is found as a whole, whatever follows it but another quote. -/
theorem scan_quote (c : Cursor) (s : Bytes) {rest : Bytes} (hrest : rest.head? ≠ some Byte.quote) :
    Token.scan c (quote s ++ rest) =
      .token ⟨.string, quote s, c.position⟩ (c.advance (quote s)) rest := by
  have hsplit : quote s ++ rest = [] ++ (quote s ++ rest) := rfl
  exact (Token.Finds.token hsplit .nil (spells_iff.2 ⟨s, rfl⟩) hrest).scan_eq

theorem tokenize_quote (s : Bytes) :
    tokenize (quote s) =
      ⟨[⟨.string, quote s, ⟨0, 1, 1⟩⟩], none, Cursor.advance {} (quote s)⟩ := by
  have hscan : Token.scan {} (quote s ++ []) = _ := scan_quote {} s (by simp)
  have hend : Token.Finds (Cursor.advance {} (quote s)) [] _ := .finished .nil
  rw [List.append_nil] at hscan
  rw [tokenize, tokenizeFrom_token hscan, tokenizeFrom_finished hend.scan_eq]
  rfl

/-- The literal of a string is scanned as one token, which starts with the source and ends with it,
and it denotes the string. All string tokens of all sources are such literals. So two of them denote
the same string exactly if they have the same text. -/
theorem literals_match_strings :
    (∀ s, tokenize (quote s) =
        ⟨[⟨.string, quote s, ⟨0, 1, 1⟩⟩], none, Cursor.advance {} (quote s)⟩ ∧
      (Cursor.advance {} (quote s)).offset = (quote s).length ∧ unquote (quote s) = s) ∧
    (∀ src, ∀ t ∈ (tokenize src).list, t.kind = .string → quote (unquote t.text) = t.text) ∧
    ∀ src, ∀ t ∈ (tokenize src).list, ∀ src', ∀ t' ∈ (tokenize src').list,
      t.kind = .string → t'.kind = .string →
      (unquote t.text = unquote t'.text ↔ t.text = t'.text) := by
  have hspells : ∀ src, ∀ t ∈ (tokenize src).list, t.kind = .string →
      Token.Spells .string t.text := by
    intro src t ht hkind
    rw [← hkind]
    exact tokenize_spells src t ht
  refine ⟨fun s => ⟨tokenize_quote s, (Cursor.start_advance (quote s)).1, unquote_quote s⟩, ?_, ?_⟩
  · intro src t ht hkind
    exact quote_unquote (hspells src t ht hkind)
  · intro src t ht src' t' ht' hkind hkind'
    exact unquote_inj (hspells src t ht hkind) (hspells src' t' ht' hkind')

/-- The literals of one quote and of two, the second longer than the first by a pair of quotes. In
between there is a comment with a quote in it, which starts right behind the first literal. -/
theorem literals_match_strings_quotes : ∃ t t',
    (tokenize (lit "\"\"\"\"# \"\n\"\"\"\"\"\"")).list = [t, t'] ∧
    t.kind = .string ∧ t'.kind = .string ∧
    unquote t.text = lit "\"" ∧ unquote t'.text = lit "\"\"" ∧
    quote (unquote t.text) = t.text ∧ t.text ≠ t'.text := by
  obtain ⟨t, t', hlist, hkinds, hstrings⟩ : ∃ t t',
      (tokenize (lit "\"\"\"\"# \"\n\"\"\"\"\"\"")).list = [t, t'] ∧
      (t.kind, t'.kind) = (.string, .string) ∧
      (unquote t.text, unquote t'.text) = (lit "\"", lit "\"\"") := ⟨_, _, by cbv, by cbv, by cbv⟩
  obtain ⟨hkind, hkind'⟩ := Prod.mk.inj hkinds
  obtain ⟨hstring, hstring'⟩ := Prod.mk.inj hstrings
  have ht : t ∈ (tokenize (lit "\"\"\"\"# \"\n\"\"\"\"\"\"")).list := by simp [hlist]
  have ht' : t' ∈ (tokenize (lit "\"\"\"\"# \"\n\"\"\"\"\"\"")).list := by simp [hlist]
  obtain ⟨-, hliteral, hdistinct⟩ := literals_match_strings
  refine ⟨t, t', hlist, hkind, hkind', hstring, hstring', hliteral _ t ht hkind, ?_⟩
  rw [ne_eq, ← hdistinct _ t ht _ t' ht' hkind hkind', hstring, hstring']
  decide +kernel

end StackLang.Literal
