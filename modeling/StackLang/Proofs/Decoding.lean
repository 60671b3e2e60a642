import Mathlib
import StackLang.Text.Utf8

/-!
# Reading what was written as UTF-8

A character has exactly one form of one to four bytes, and no text starts with the forms of two
characters. So characters that are written one behind the other are read back, whatever follows on
them, and a text that is read is made up of the bytes of its glyphs.

* `Utf8.Form`: the forms, by the ranges of their bytes (`form_encode`, `Form.eq_encode`).
* `Utf8.first?_encode`, `Utf8.eq_encode_of_first?`: the first character of a text.
* `Utf8.decode_chars_append`, `Utf8.decode_chars`: characters are read back.
* `Utf8.bytes_decode`: a text is the bytes of its glyphs.
-/

namespace StackLang.Utf8

/-! ## Bytes -/

theorem isTail_iff {b : UInt8} : isTail b = true ↔ 0x80 ≤ b.toNat ∧ b.toNat < 0xc0 := by
  simp only [isTail, Bool.and_eq_true, decide_eq_true_eq, UInt8.le_iff_toNat_le,
    UInt8.lt_iff_toNat_lt]
  exact Iff.rfl

theorem toNat_ofNat {n : Nat} (h : n < 256) : (UInt8.ofNat n).toNat = n := by
  rw [UInt8.toNat_ofNat', Nat.mod_eq_of_lt h]

theorem eq_ofNat {a : UInt8} {n : Nat} (h : a.toNat = n) : a = UInt8.ofNat n := by
  rw [← h, UInt8.ofNat_toNat]

theorem not_lt_of_le {a b : UInt8} (h : b.toNat ≤ a.toNat) : ¬ a < b :=
  fun hlt => Nat.not_lt.2 h (UInt8.lt_iff_toNat_lt.1 hlt)

theorem le_of_not_lt {a b : UInt8} (h : ¬ a < b) : b.toNat ≤ a.toNat :=
  Nat.not_lt.1 fun hlt => h (UInt8.lt_iff_toNat_lt.2 hlt)

/-- A byte that carries the last six bits of a number. -/
theorem tail_of_toNat {b : UInt8} {n : Nat} (h : b.toNat = n % 64 + 0x80) :
    isTail b = true ∧ tailBits b = n % 64 := by
  unfold tailBits
  constructor
  · rw [isTail_iff]
    omega
  · omega

theorem scalar?_eq_some {least n : Nat} {c : Char} :
    scalar? least n = some c ↔ least ≤ n ∧ c.toNat = n := by
  unfold scalar?
  constructor
  · intro h
    split at h
    · rename_i hn
      cases h
      exact ⟨hn.1, by rw [Char.toNat_ofNat, if_pos hn.2]⟩
    · cases h
  · rintro ⟨hle, rfl⟩
    rw [if_pos ⟨hle, c.valid⟩, Char.ofNat_toNat]

/-! ## Forms -/

/-- The bytes that stand for a character. The first byte says how many there are, and the number of
the character must need that many. -/
inductive Form (c : Char) : Bytes → Prop
  | one {a : UInt8} (ha : a.toNat < 0x80) (hc : c.toNat = a.toNat) : Form c [a]
  | two {a b : UInt8} (ha : 0xc0 ≤ a.toNat) (ha' : a.toNat < 0xe0) (hb : isTail b = true)
    (hleast : 0x80 ≤ c.toNat) (hc : c.toNat = (a.toNat - 0xc0) * 64 + tailBits b) : Form c [a, b]
  | three {a b d : UInt8} (ha : 0xe0 ≤ a.toNat) (ha' : a.toNat < 0xf0) (hb : isTail b = true)
    (hd : isTail d = true) (hleast : 0x800 ≤ c.toNat)
    (hc : c.toNat = ((a.toNat - 0xe0) * 64 + tailBits b) * 64 + tailBits d) : Form c [a, b, d]
  | four {a b d e : UInt8} (ha : 0xf0 ≤ a.toNat) (ha' : a.toNat < 0xf8) (hb : isTail b = true)
    (hd : isTail d = true) (he : isTail e = true) (hleast : 0x10000 ≤ c.toNat)
    (hc : c.toNat = (((a.toNat - 0xf0) * 64 + tailBits b) * 64 + tailBits d) * 64 + tailBits e) :
    Form c [a, b, d, e]

theorem form_encode (c : Char) : Form c (encode c) := by
  have hmax : c.toNat < 0x110000 := by
    have hvalid : c.toNat.isValidChar := c.valid
    unfold Nat.isValidChar at hvalid
    omega
  have htail : ∀ n, _ := fun n => tail_of_toNat (toNat_ofNat (show n % 64 + 0x80 < 256 by omega))
  unfold encode String.utf8EncodeChar
  simp only [Char.toNat_val]
  split_ifs with h₁ h₂ h₃
  · have ha := toNat_ofNat (show c.toNat < 256 by omega)
    exact .one (by omega) ha.symm
  · have ha := toNat_ofNat (show c.toNat / 64 % 32 + 0xc0 < 256 by omega)
    obtain ⟨hb, hbits⟩ := htail c.toNat
    exact .two (by omega) (by omega) hb (by omega) (by omega)
  · have ha := toNat_ofNat (show c.toNat / 4096 % 16 + 0xe0 < 256 by omega)
    obtain ⟨hb, hbits⟩ := htail (c.toNat / 64)
    obtain ⟨hd, hbits'⟩ := htail c.toNat
    exact .three (by omega) (by omega) hb hd (by omega) (by omega)
  · have ha := toNat_ofNat (show c.toNat / 262144 % 8 + 0xf0 < 256 by omega)
    obtain ⟨hb, hbits⟩ := htail (c.toNat / 4096)
    obtain ⟨hd, hbits'⟩ := htail (c.toNat / 64)
    obtain ⟨he, hbits''⟩ := htail c.toNat
    exact .four (by omega) (by omega) hb hd he (by omega) (by omega)

/-- A character has no other form. -/
theorem Form.eq_encode {c : Char} {s : Bytes} (h : Form c s) : s = encode c := by
  unfold encode String.utf8EncodeChar
  simp only [Char.toNat_val]
  cases h with
  | one ha hc => rw [if_pos (by omega), ← eq_ofNat hc.symm]
  | @two a b ha ha' hb hleast hc =>
    rw [isTail_iff] at hb
    unfold tailBits at hc
    rw [if_neg (by omega), if_pos (by omega), ← @eq_ofNat a _ (by omega),
      ← @eq_ofNat b _ (by omega)]
  | @three a b d ha ha' hb hd hleast hc =>
    rw [isTail_iff] at hb hd
    unfold tailBits at hc
    rw [if_neg (by omega), if_neg (by omega), if_pos (by omega), ← @eq_ofNat a _ (by omega),
      ← @eq_ofNat b _ (by omega), ← @eq_ofNat d _ (by omega)]
  | @four a b d e ha ha' hb hd he hleast hc =>
    rw [isTail_iff] at hb hd he
    unfold tailBits at hc
    rw [if_neg (by omega), if_neg (by omega), if_neg (by omega), ← @eq_ofNat a _ (by omega),
      ← @eq_ofNat b _ (by omega), ← @eq_ofNat d _ (by omega), ← @eq_ofNat e _ (by omega)]

/-! ## The first character -/

/-- A text that starts with a form starts with its character. -/
theorem Form.first? {c : Char} {s : Bytes} (h : Form c s) (rest : Bytes) :
    first? (s ++ rest) = some (c, rest) := by
  cases h with
  | @one a ha hc =>
    have h80 : a < 0x80 := UInt8.lt_iff_toNat_lt.2 ha
    simp only [List.cons_append, List.nil_append, Utf8.first?, if_pos h80, ← hc, Char.ofNat_toNat]
  | @two a b ha ha' hb hleast hc =>
    have h80 : ¬ a < 0x80 := not_lt_of_le (Nat.le_trans (by decide) ha)
    have hc0 : ¬ a < 0xc0 := not_lt_of_le ha
    have he0 : a < 0xe0 := UInt8.lt_iff_toNat_lt.2 ha'
    have hscalar := scalar?_eq_some.2 ⟨hc ▸ hleast, hc⟩
    simp only [List.cons_append, List.nil_append, Utf8.first?, if_neg h80, if_neg hc0, if_pos he0,
      hb, if_true, hscalar, Option.map_some]
  | @three a b d ha ha' hb hd hleast hc =>
    have h80 : ¬ a < 0x80 := not_lt_of_le (Nat.le_trans (by decide) ha)
    have hc0 : ¬ a < 0xc0 := not_lt_of_le (Nat.le_trans (by decide) ha)
    have he0 : ¬ a < 0xe0 := not_lt_of_le ha
    have hf0 : a < 0xf0 := UInt8.lt_iff_toNat_lt.2 ha'
    have hscalar := scalar?_eq_some.2 ⟨hc ▸ hleast, hc⟩
    simp only [List.cons_append, List.nil_append, Utf8.first?, if_neg h80, if_neg hc0, if_neg he0,
      if_pos hf0, hb, hd, Bool.and_self, if_true, hscalar, Option.map_some]
  | @four a b d e ha ha' hb hd he hleast hc =>
    have h80 : ¬ a < 0x80 := not_lt_of_le (Nat.le_trans (by decide) ha)
    have hc0 : ¬ a < 0xc0 := not_lt_of_le (Nat.le_trans (by decide) ha)
    have he0 : ¬ a < 0xe0 := not_lt_of_le (Nat.le_trans (by decide) ha)
    have hf0 : ¬ a < 0xf0 := not_lt_of_le ha
    have hf8 : a < 0xf8 := UInt8.lt_iff_toNat_lt.2 ha'
    have hscalar := scalar?_eq_some.2 ⟨hc ▸ hleast, hc⟩
    simp only [List.cons_append, List.nil_append, Utf8.first?, if_neg h80, if_neg hc0, if_neg he0,
      if_neg hf0, if_pos hf8, hb, hd, he, Bool.and_self, if_true, hscalar, Option.map_some]

/-- A text that starts with a character starts with a form of it. -/
theorem form_of_first? {s rest : Bytes} {c : Char} (h : first? s = some (c, rest)) :
    ∃ form, Form c form ∧ s = form ++ rest := by
  unfold first? at h
  split at h
  · cases h
  rename_i a r
  split at h
  · rename_i h80
    cases h
    have ha : a.toNat < 0x80 := UInt8.lt_iff_toNat_lt.1 h80
    have hvalid : a.toNat.isValidChar := Or.inl (by omega)
    exact ⟨[a], .one ha (by rw [Char.toNat_ofNat, if_pos hvalid]), rfl⟩
  split at h
  · cases h
  rename_i hc0
  split at h
  · rename_i he0
    split at h
    · rename_i b r'
      split at h
      · rename_i hb
        obtain ⟨c', hc', heq⟩ := Option.map_eq_some_iff.1 h
        cases heq
        obtain ⟨hleast, hnat⟩ := scalar?_eq_some.1 hc'
        have hform : Form c [a, b] :=
          .two (le_of_not_lt hc0) (UInt8.lt_iff_toNat_lt.1 he0) hb (hnat ▸ hleast) hnat
        exact ⟨[a, b], hform, rfl⟩
      · cases h
    · cases h
  rename_i he0
  split at h
  · rename_i hf0
    split at h
    · rename_i b d r'
      split at h
      · rename_i htails
        obtain ⟨hb, hd⟩ := Bool.and_eq_true_iff.1 htails
        obtain ⟨c', hc', heq⟩ := Option.map_eq_some_iff.1 h
        cases heq
        obtain ⟨hleast, hnat⟩ := scalar?_eq_some.1 hc'
        exact ⟨[a, b, d], .three (le_of_not_lt he0) (UInt8.lt_iff_toNat_lt.1 hf0) hb hd
          (hnat ▸ hleast) hnat, rfl⟩
      · cases h
    · cases h
  rename_i hf0
  split at h
  · rename_i hf8
    split at h
    · rename_i b d e r'
      split at h
      · rename_i htails
        obtain ⟨hbd, he⟩ := Bool.and_eq_true_iff.1 htails
        obtain ⟨hb, hd⟩ := Bool.and_eq_true_iff.1 hbd
        obtain ⟨c', hc', heq⟩ := Option.map_eq_some_iff.1 h
        cases heq
        obtain ⟨hleast, hnat⟩ := scalar?_eq_some.1 hc'
        exact ⟨[a, b, d, e], .four (le_of_not_lt hf0) (UInt8.lt_iff_toNat_lt.1 hf8) hb hd he
          (hnat ▸ hleast) hnat, rfl⟩
      · cases h
    · cases h
  · cases h

theorem first?_encode (c : Char) (rest : Bytes) : first? (encode c ++ rest) = some (c, rest) :=
  (form_encode c).first? rest

theorem eq_encode_of_first? {s rest : Bytes} {c : Char} (h : first? s = some (c, rest)) :
    s = encode c ++ rest := by
  obtain ⟨form, hform, rfl⟩ := form_of_first? h
  rw [hform.eq_encode]

/-! ## Texts -/

theorem decode_of_first? {s rest : Bytes} {c : Char} (h : first? s = some (c, rest)) :
    decode s = .char c :: decode rest := by
  cases s with
  | nil => cases h
  | cons b r =>
    rw [decode]
    split
    · rename_i c' rest' heq
      rw [h] at heq
      cases heq
      rfl
    · rename_i heq
      rw [h] at heq
      cases heq

theorem decode_encode_append (c : Char) (rest : Bytes) :
    decode (encode c ++ rest) = .char c :: decode rest :=
  decode_of_first? (first?_encode c rest)

/-- Characters are read back, whatever follows on them. -/
theorem decode_chars_append (cs : List Char) (rest : Bytes) :
    decode (cs.flatMap encode ++ rest) = cs.map .char ++ decode rest := by
  induction cs with
  | nil => rfl
  | cons c cs ih =>
    rw [List.flatMap_cons, List.append_assoc, decode_encode_append, ih, List.map_cons,
      List.cons_append]

theorem decode_chars (cs : List Char) : decode (cs.flatMap encode) = cs.map .char := by
  have happend := decode_chars_append cs []
  rwa [List.append_nil, decode, List.append_nil] at happend

/-- A text is the bytes of its glyphs. -/
theorem bytes_decode (s : Bytes) : (decode s).flatMap Glyph.bytes = s := by
  fun_induction decode s with
  | case1 => rfl
  | case2 b r c rest h _ ih =>
    rw [List.flatMap_cons, ih, eq_encode_of_first? h]
    rfl
  | case3 b r h ih =>
    rw [List.flatMap_cons, ih]
    rfl

end StackLang.Utf8
