import Mathlib
import StackLang.Proofs.Scanning

/-!
# Reading back what is written

Tokens can be written one behind the other, with white space and comments between them. They are
read back as they were written, as long as no two of them run together: what is not a string takes
white space behind it, and two strings must not touch, since their quotes would make a pair.

* `Token.Filler`: a piece of what is written between two tokens.
* `Token.Spelling`: what is written of a token.
* `Token.Separated`: written tokens that do not run together.
* `Token.tokenize_render`: they are read back.
-/

namespace StackLang.Token

/-! ## Separators -/

/-- White space, or a comment with the line break that ends it. -/
inductive Filler where
  | space (b : UInt8) (hb : Byte.isSpace b = true)
  | comment (text : Bytes) (htext : Byte.newline ∉ text)

def Filler.isSpace : Filler → Bool
  | space _ _ => true
  | comment _ _ => false

def Filler.bytes : Filler → Bytes
  | space b _ => [b]
  | comment text _ => Byte.hash :: (text ++ [Byte.newline])

/-- What a separator is written as. -/
def fill (sep : List Filler) : Bytes := sep.flatMap Filler.bytes

theorem fill_cons (f : Filler) (sep : List Filler) : fill (f :: sep) = f.bytes ++ fill sep :=
  List.flatMap_cons

/-- A separator is a gap in front of any text. -/
theorem gap_fill (sep : List Filler) (rest : Bytes) : Gap rest (fill sep) := by
  induction sep with
  | nil => exact .nil
  | cons f sep ih =>
    rw [fill_cons]
    cases f with
    | space b hb => exact .space hb ih
    | comment text htext =>
      have hend : Gap rest (Byte.newline :: fill sep) := .space (by decide) ih
      have hgap : Gap rest (Byte.hash :: (text ++ Byte.newline :: fill sep)) :=
        .comment htext (Or.inl rfl) hend
      simpa [Filler.bytes] using hgap

/-! ## Tokens with separators -/

/-- What is written of a token. -/
structure Spelling where
  kind : Kind
  text : Bytes
  spells : Spells kind text

/-- Behind a token of the one class, a separator keeps off a token of the other class, if there is
one: it starts with white space, or the token is a string and does not touch another one. At the end,
there need not be a separator. -/
def KeepsOff (kind : Kind) (sep : List Filler) (next : Option Kind) : Prop :=
  sep.head?.any Filler.isSpace = true ∨
    kind = .string ∧ (sep ≠ [] ∨ next ≠ some .string) ∨ sep = [] ∧ next = none

instance (kind : Kind) (sep : List Filler) (next : Option Kind) :
    Decidable (KeepsOff kind sep next) :=
  inferInstanceAs (Decidable (_ ∨ _ ∧ (_ ∨ _) ∨ _ ∧ _))

/-- Tokens, each with the separator behind it, that do not run together. -/
def Separated : List (Spelling × List Filler) → Prop
  | [] => True
  | (t, sep) :: ts => KeepsOff t.kind sep (ts.head?.map fun next => next.1.kind) ∧ Separated ts

instance decidableSeparated : (ts : List (Spelling × List Filler)) → Decidable (Separated ts)
  | [] => .isTrue trivial
  | (_, _) :: ts =>
    have := decidableSeparated ts
    inferInstanceAs (Decidable (_ ∧ _))

/-- Tokens, each with the separator behind it, are written one behind the other. -/
def written (ts : List (Spelling × List Filler)) : Bytes :=
  ts.flatMap fun t => t.1.text ++ fill t.2

/-- Tokens are written, with a separator at the start and behind each of them. -/
def render (sep : List Filler) (ts : List (Spelling × List Filler)) : Bytes := fill sep ++ written ts

theorem render_cons (sep : List Filler) (t : Spelling) (sep' : List Filler)
    (ts : List (Spelling × List Filler)) :
    render sep ((t, sep') :: ts) = fill sep ++ (t.text ++ render sep' ts) := by
  simp [render, written]

/-- Only a string starts with a quote. -/
theorem head?_written {ts : List (Spelling × List Filler)}
    (h : (ts.head?.map fun next => next.1.kind) ≠ some .string) :
    (written ts).head? ≠ some Byte.quote := by
  cases ts with
  | nil => simp [written]
  | cons t ts =>
    obtain ⟨⟨kind, text, hspells⟩, sep⟩ := t
    have hkind : kind ≠ .string := fun heq => h (congrArg some heq)
    obtain ⟨-, b, s, rfl, hquote, -, -⟩ := hspells.solid hkind
    simpa [written] using hquote

/-- A separator that keeps off the next token ends the one before it. -/
theorem KeepsOff.ends {kind : Kind} {sep : List Filler} {ts : List (Spelling × List Filler)}
    (h : KeepsOff kind sep (ts.head?.map fun next => next.1.kind)) :
    Ends kind (render sep ts) := by
  cases sep with
  | nil =>
    rcases h with hspace | ⟨rfl, hnext⟩ | ⟨-, hlast⟩
    · cases hspace
    · exact head?_written (hnext.resolve_left fun hne => hne rfl)
    · have hnil : ts = [] := by simpa using hlast
      rw [hnil]
      exact ends_of_space (by simp [render, fill, written])
  | cons f sep =>
    cases f with
    | space b hb => exact ends_of_space (by simp [render, fill, Filler.bytes, hb])
    | comment text htext =>
      -- A comment makes a word longer, so there must be a string before it.
      rcases h with hspace | ⟨rfl, -⟩ | ⟨hnil, -⟩
      · cases hspace
      · show (render (.comment text htext :: sep) ts).head? ≠ some Byte.quote
        simp [render, fill, Filler.bytes, Byte.hash, Byte.quote]
      · cases hnil

theorem scan_render_nil (c : Cursor) (sep : List Filler) :
    scan c (render sep []) = .finished (c.advance (fill sep)) := by
  have hwritten : render sep [] = fill sep := List.append_nil _
  have hfinds : Finds c (fill sep) (.finished (c.advance (fill sep))) :=
    .finished (gap_fill sep [])
  rw [hwritten, hfinds.scan_eq]

/-- The first token is found, and the others are left, with the separator in front of them. -/
theorem scan_render_cons (c : Cursor) (sep : List Filler) {t : Spelling} {sep' : List Filler}
    {ts : List (Spelling × List Filler)}
    (h : KeepsOff t.kind sep' (ts.head?.map fun next => next.1.kind)) :
    scan c (render sep ((t, sep') :: ts)) =
      .token ⟨t.kind, t.text, (c.advance (fill sep)).position⟩
        ((c.advance (fill sep)).advance t.text) (render sep' ts) := by
  have hgap := gap_fill sep (t.text ++ render sep' ts)
  exact (Finds.token (render_cons sep t sep' ts) hgap t.spells h.ends).scan_eq

/-- Tokens that are written so that they do not run together are read back, and there is no error. -/
theorem tokenize_render (sep : List Filler) (ts : List (Spelling × List Filler))
    (h : Separated ts) :
    (tokenize (render sep ts)).list.map (fun t => (t.kind, t.text)) =
        ts.map (fun t => (t.1.kind, t.1.text)) ∧
      (tokenize (render sep ts)).unclosed = none := by
  unfold tokenize
  -- What is read back is independent of where the text starts.
  generalize ({} : Cursor) = c
  induction ts generalizing c sep with
  | nil =>
    rw [tokenizeFrom_finished (scan_render_nil c sep)]
    exact ⟨rfl, rfl⟩
  | cons t ts ih =>
    obtain ⟨t, sep'⟩ := t
    obtain ⟨hoff, hts⟩ := h
    obtain ⟨hlist, hunclosed⟩ := ih sep' hts ((c.advance (fill sep)).advance t.text)
    rw [tokenizeFrom_token (scan_render_cons c sep hoff)]
    refine ⟨?_, hunclosed⟩
    rw [Tokens.cons, List.map_cons, hlist, List.map_cons]

/-- A string of nothing but a quote with a symbol right behind it, comments with quotes in them, one
of them right behind a string, and an empty string with a number right behind it. -/
def glued : List (Spelling × List Filler) :=
  [(⟨.string, lit "\"\"\"\"", .string (.pair .nil)⟩, []),
    (⟨.symbol, lit ":a\"", .symbol (s := lit "a\"") (by decide +kernel)⟩,
      [.space Byte.space rfl, .comment (lit "\" \x7b") (by decide +kernel)]),
    (⟨.string, lit "\"#\"", .string (.byte (b := Byte.hash) (by decide) .nil)⟩,
      [.comment (lit "\"") (by decide +kernel)]),
    (⟨.string, lit "\"\"", .string .nil⟩, []),
    (⟨.number, lit "1#", .number (d := 0x31) (s := lit "#") (by decide) (by decide +kernel)⟩,
      [.space Byte.newline rfl]),
    (⟨.word, lit "\x7d", .word (b := 0x7d) (s := []) (by decide) (by decide) (by decide)
      (by decide) (by decide +kernel)⟩, [])]

theorem tokenize_render_glued :
    Separated glued ∧
    render [.comment (lit "\"") (by decide +kernel)] glued =
      lit "#\"\n\"\"\"\":a\" #\" \x7b\n\"#\"#\"\n\"\"1#\n\x7d" ∧
    (tokenize (lit "#\"\n\"\"\"\":a\" #\" \x7b\n\"#\"#\"\n\"\"1#\n\x7d")).list.map
        (fun t => (t.kind, t.text)) =
      [(.string, lit "\"\"\"\""), (.symbol, lit ":a\""), (.string, lit "\"#\""),
        (.string, lit "\"\""), (.number, lit "1#"), (.word, lit "\x7d")] := by
  have hseparated : Separated glued := by decide +kernel
  have hrender : render [.comment (lit "\"") (by decide +kernel)] glued =
      lit "#\"\n\"\"\"\":a\" #\" \x7b\n\"#\"#\"\n\"\"1#\n\x7d" := by
    decide +kernel
  refine ⟨hseparated, hrender, ?_⟩
  rw [← hrender]
  exact (tokenize_render _ glued hseparated).1

end StackLang.Token
