import Mathlib
import StackLang.Proofs.Controls

/-!
# Characters by their numbers

Characters are also written one by one, by their numbers, and a number may be anything. Numbers that
belong to no character are to be written as the replacement character. That is so for those that are
too large and for surrogates, but of a negative number the lowest byte is written, as if it were
ASCII. It may be no character at all, or make one up with other bytes.

* `Terminal.Renders`: the characters that a number is to be written as (`renders_iff`).
* `Terminal.encodeRune_of_nonneg`, `Terminal.encodeRune_of_neg`: what is written.
* `Terminal.nonneg_of_decode`: negative numbers take too few bytes.
* `Terminal.runes_read_back`: what is read when numbers were written one after the other.
-/

namespace StackLang.Terminal

/-! ## Renderings -/

/-- The characters that a number is to be written as. -/
inductive Renders : Int → List Char → Prop
  | ascii {c : Char} (h : c.toNat < 0x80) : Renders c.toNat [c]
  | nextLine : Renders 0x85 ['\r', '\n']
  | control {c d : Char} (hlow : 0x80 ≤ c.toNat) (hhigh : c.toNat ≤ 0x9f) (hne : c.toNat ≠ 0x85)
    (hd : d.toNat + 0x40 = c.toNat) : Renders c.toNat ['\x1b', d]
  | other {c : Char} (h : 0x9f < c.toNat) : Renders c.toNat [c]
  | invalid {r : Int} (h : ∀ c : Char, r ≠ c.toNat) : Renders r [Glyph.replacement]

/-- The character with a number, if there is one, or else the replacement character. -/
def ofNumber (r : Int) : Char :=
  if 0 ≤ r ∧ r.toNat.isValidChar then Char.ofNat r.toNat else Glyph.replacement

theorem ofNumber_toNat (c : Char) : ofNumber c.toNat = c := by
  have hvalid : c.toNat.isValidChar := c.valid
  rw [ofNumber, Int.toNat_natCast, if_pos ⟨Int.natCast_nonneg _, hvalid⟩, Char.ofNat_toNat]

theorem ofNumber_of_ne {r : Int} (h : ∀ c : Char, r ≠ c.toNat) :
    ofNumber r = Glyph.replacement := by
  rw [ofNumber, if_neg]
  rintro ⟨hnonneg, hvalid⟩
  apply h (Char.ofNat r.toNat)
  rw [Char.toNat_ofNat, if_pos hvalid, Int.toNat_of_nonneg hnonneg]

theorem renders_chars (c : Char) : Renders c.toNat (chars c) := by
  by_cases hc : isControl c = true
  · unfold chars
    rw [if_pos hc]
    rw [isControl_iff] at hc
    split
    · rename_i hnel
      rw [hnel]
      exact .nextLine
    · rename_i hnel
      apply Renders.control hc.1 hc.2 hnel
      rw [toNat_ascii (by omega)]
      omega
  · rw [Bool.not_eq_true] at hc
    rw [chars_of_not hc]
    rw [isControl_eq_false_iff] at hc
    exact hc.elim .ascii .other

/-- Every number has one rendering. -/
theorem renders_iff {r : Int} {cs : List Char} : Renders r cs ↔ cs = chars (ofNumber r) := by
  constructor
  · intro h
    cases h with
    | ascii h =>
      rw [ofNumber_toNat, chars_of_not (isControl_eq_false_iff.2 (.inl h))]
    | nextLine => rfl
    | @control c d hlow hhigh hne hd =>
      have hsecond : c.toNat - 0x40 = d.toNat := by omega
      rw [ofNumber_toNat, chars, if_neg hne, if_pos (isControl_iff.2 ⟨hlow, hhigh⟩), hsecond,
        Char.ofNat_toNat]
    | other h =>
      rw [ofNumber_toNat, chars_of_not (isControl_eq_false_iff.2 (.inr h))]
    | invalid h =>
      rw [ofNumber_of_ne h]
      rfl
  · rintro rfl
    by_cases h : ∀ c : Char, r ≠ c.toNat
    · rw [ofNumber_of_ne h]
      exact .invalid h
    · simp only [not_forall, not_not] at h
      obtain ⟨c, rfl⟩ := h
      rw [ofNumber_toNat]
      exact renders_chars c

theorem forall₂_renders_iff {rs : List Int} {css : List (List Char)} :
    List.Forall₂ Renders rs css ↔ css = rs.map fun r => chars (ofNumber r) := by
  induction rs generalizing css with
  | nil => simp
  | cons r rs ih => simp [List.forall₂_cons_left_iff, renders_iff, ih]

/-! ## Bytes -/

/-- A number that is not negative is written as it should be. -/
theorem encodeRune_of_nonneg {r : Int} (h : 0 ≤ r) :
    encodeRune r = (chars (ofNumber r)).flatMap Utf8.encode := by
  by_cases hvalid : r.toNat.isValidChar
  · have hnat : (Char.ofNat r.toNat).toNat = r.toNat := by rw [Char.toNat_ofNat, if_pos hvalid]
    rw [ofNumber, if_pos ⟨h, hvalid⟩, ← encodeRune_eq, hnat, Int.toNat_of_nonneg h]
  · have hlarge : 0xd800 ≤ r := by
      unfold Nat.isValidChar at hvalid
      omega
    have hwritten : chars Glyph.replacement = [Glyph.replacement] := by decide
    rw [ofNumber, if_neg (fun hand => hvalid hand.2), hwritten, List.flatMap_singleton, encodeRune,
      if_neg (by omega), if_neg (by omega), if_neg (by omega), if_neg hvalid]

/-- Of a negative number, the lowest byte is written. -/
theorem encodeRune_of_neg {r : Int} (h : r < 0) : encodeRune r = [(r % 256).toNat.toUInt8] := by
  rw [encodeRune, if_pos (by omega)]

/-- The characters that numbers are to be written as, one after the other. -/
def rendering (rs : List Int) : List Char := rs.flatMap fun r => chars (ofNumber r)

theorem flatMap_encodeRune_of_nonneg {rs : List Int} (h : ∀ r ∈ rs, 0 ≤ r) :
    rs.flatMap encodeRune = (rendering rs).flatMap Utf8.encode := by
  rw [rendering, List.flatMap_assoc]
  exact List.flatMap_congr fun r hr => encodeRune_of_nonneg (h r hr)

/-- What is written takes at most the bytes that it should take, and fewer if a number is negative:
one byte stands in for the three of the replacement character. -/
theorem length_flatMap_encodeRune (rs : List Int) :
    (rs.flatMap encodeRune).length ≤ ((rendering rs).flatMap Utf8.encode).length ∧
      ((rs.flatMap encodeRune).length = ((rendering rs).flatMap Utf8.encode).length →
        ∀ r ∈ rs, 0 ≤ r) := by
  unfold rendering
  induction rs with
  | nil => simp
  | cons r rs ih =>
    simp only [List.flatMap_cons, List.flatMap_append, List.length_append, List.forall_mem_cons]
    by_cases hr : 0 ≤ r
    · rw [encodeRune_of_nonneg hr]
      refine ⟨by omega, fun heq => ⟨hr, ih.2 (by omega)⟩⟩
    · have hshort : (encodeRune r).length = 1 := by
        rw [encodeRune_of_neg (by omega)]
        rfl
      have hlong : ((chars (ofNumber r)).flatMap Utf8.encode).length = 3 := by
        rw [ofNumber, if_neg (fun hand => hr hand.1)]
        decide +kernel
      omega

/-- The bytes are read as the rendering only if no number is negative. -/
theorem nonneg_of_decode {rs : List Int}
    (h : Utf8.decode (rs.flatMap encodeRune) = (rendering rs).map .char) : ∀ r ∈ rs, 0 ≤ r := by
  apply (length_flatMap_encodeRune rs).2
  rw [← Utf8.bytes_decode (rs.flatMap encodeRune), h, List.flatMap_map]
  rfl

/-! ## Writing -/

/-- Numbers are written to a device one after the other, each in one call. -/
def writeRunes (d : Device) (rs : List Int) : Device := d.writeEach (rs.map encodeRune)

/-- Write numbers one after the other, each in one call. They have one rendering, in which no control
character is left. The bytes are read as that rendering exactly if no number is negative. They are
valid UTF-8 then, and nothing that follows on them changes how they are read. Of a negative number,
the lowest byte is written. -/
theorem runes_read_back (d : Device) (rs : List Int) :
    (writeRunes d rs).offers = d.offers ++ rs.map encodeRune ∧
      ∃ css, (∀ css', List.Forall₂ Renders rs css' ↔ css' = css) ∧
        (∀ c ∈ css.flatten, isControl c = false) ∧
        (Utf8.decode (rs.map encodeRune).flatten = css.flatten.map .char ↔ ∀ r ∈ rs, 0 ≤ r) ∧
        ((∀ r ∈ rs, 0 ≤ r) → Utf8.valid (rs.map encodeRune).flatten = true ∧
          ∀ rest, Utf8.decode ((rs.map encodeRune).flatten ++ rest) =
            css.flatten.map .char ++ Utf8.decode rest) ∧
        ∀ r ∈ rs, r < 0 → encodeRune r = [(r % 256).toNat.toUInt8] := by
  refine ⟨d.offers_writeEach _, rs.map fun r => chars (ofNumber r),
    fun css' => forall₂_renders_iff, ?_⟩
  have hflatten : (rs.map fun r => chars (ofNumber r)).flatten = rendering rs := rfl
  rw [hflatten, ← List.flatMap_def]
  have hread : (∀ r ∈ rs, 0 ≤ r) →
      Utf8.decode (rs.flatMap encodeRune) = (rendering rs).map .char := by
    intro hnonneg
    rw [flatMap_encodeRune_of_nonneg hnonneg, Utf8.decode_chars]
  refine ⟨?_, ⟨nonneg_of_decode, hread⟩, ?_, fun r _ => encodeRune_of_neg⟩
  · intro c hc
    obtain ⟨r, -, hr⟩ := List.mem_flatMap.1 hc
    exact not_isControl_of_mem_chars hr
  · intro hnonneg
    constructor
    · rw [Utf8.valid, hread hnonneg, List.all_map]
      exact List.all_eq_true.2 fun _ _ => rfl
    · intro rest
      rw [flatMap_encodeRune_of_nonneg hnonneg, Utf8.decode_chars_append]

/-- The next-line character, a control sequence introducer, a surrogate and a number that is too
large. -/
theorem runes_read_back_rendered :
    (∀ r ∈ ([0x41, 0x85, 0x9b, 0xd800, 0x110000] : List Int), 0 ≤ r) ∧
      Utf8.decode (([0x41, 0x85, 0x9b, 0xd800, 0x110000] : List Int).map encodeRune).flatten =
        ['A', '\r', '\n', '\x1b', '[', '\uFFFD', '\uFFFD'].map .char := by
  have hnonneg : ∀ r ∈ ([0x41, 0x85, 0x9b, 0xd800, 0x110000] : List Int), 0 ≤ r := by decide
  obtain ⟨-, css, hrenders, -, hread, -⟩ :=
    runes_read_back {} [0x41, 0x85, 0x9b, 0xd800, 0x110000]
  have hnone : ∀ c : Char, (0xd800 : Int) ≠ c.toNat ∧ (0x110000 : Int) ≠ c.toNat := by
    intro c
    have hvalid : c.toNat.isValidChar := c.valid
    unfold Nat.isValidChar at hvalid
    omega
  have hcss : css = [['A'], ['\r', '\n'], ['\x1b', '['], ['\uFFFD'], ['\uFFFD']] := by
    symm
    rw [← hrenders]
    refine .cons (.ascii (c := 'A') (by decide)) (.cons .nextLine (.cons ?_ (.cons
      (.invalid fun c => (hnone c).1) (.cons (.invalid fun c => (hnone c).2) .nil))))
    exact .control (c := '\u009b') (by decide) (by decide) (by decide) (by decide)
  rw [hcss] at hread
  exact ⟨hnonneg, hread.2 hnonneg⟩

/-- A negative number is not written as the replacement character, and not even as UTF-8. Two of
them can make up a control character. -/
theorem runes_negative_unread :
    (¬ ∃ css, List.Forall₂ Renders [-1] css ∧
        Utf8.decode ([-1].map encodeRune).flatten = css.flatten.map .char) ∧
      Utf8.valid ([-1].map encodeRune).flatten = false ∧
      Utf8.decode ([-62, -101].map encodeRune).flatten = [.char '\u009b'] ∧
      isControl '\u009b' = true := by
  have hstray : Utf8.decode ([-1].map encodeRune).flatten = [.stray 0xff] := by decide +kernel
  refine ⟨?_, by decide +kernel, by decide +kernel, by decide⟩
  rintro ⟨css, -, hdecode⟩
  rw [hstray] at hdecode
  have hmem : Glyph.stray 0xff ∈ css.flatten.map Glyph.char := by
    rw [← hdecode]
    exact List.mem_singleton_self _
  obtain ⟨c, -, hc⟩ := List.mem_map.1 hmem
  cases hc

end StackLang.Terminal
