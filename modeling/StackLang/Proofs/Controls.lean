import Mathlib
import StackLang.Proofs.Aborts
import StackLang.Proofs.Decoding

/-!
# Control characters in output

No control character above ASCII gets out in its UTF-8 form. A text without any goes out as it is,
stray bytes included. Any other is written character by character, and what is written for one of
them never joins with what is written for the next: all of it is whole characters again.

* `Terminal.chars`: the characters that are written for a character (`encodeRune_eq`).
* `Terminal.encode_of_none`, `Terminal.encode_of_some`: the two ways a text is written.
* `Stream.Handed`: the texts that a stream is handed in a sequence of calls. If no buffer stands
  before its device, the device is offered the same texts (`Handed.offers`).
* `Output.Offered`: a text is handed to a stream in one call.
* `Session.write_offers_no_control`: what a session offers to its streams when it writes a text.
-/

namespace StackLang

namespace Terminal

/-! ## Characters -/

/-- The characters that are written for a character. -/
def chars (c : Char) : List Char :=
  if c.toNat = 0x85 then ['\r', '\n']
  else if isControl c then ['\x1b', Char.ofNat (c.toNat - 0x40)]
  else [c]

theorem isControl_iff {c : Char} : isControl c = true ↔ 0x80 ≤ c.toNat ∧ c.toNat ≤ 0x9f := by
  simp [isControl]

theorem isControl_eq_false_iff {c : Char} :
    isControl c = false ↔ c.toNat < 0x80 ∨ 0x9f < c.toNat := by
  rw [Bool.eq_false_iff, ne_eq, isControl_iff]
  omega

theorem toNat_ascii {n : Nat} (h : n < 0x80) : (Char.ofNat n).toNat = n := by
  rw [Char.toNat_ofNat, if_pos (Or.inl (by omega))]

theorem encode_ascii {n : Nat} (h : n < 0x80) : Utf8.encode (Char.ofNat n) = [n.toUInt8] := by
  have hbyte : n.toUInt8.toNat = n := Utf8.toNat_ofNat (by omega)
  have hchar := toNat_ascii h
  exact (Utf8.Form.one (by omega) (by omega)).eq_encode.symm

theorem chars_of_not {c : Char} (h : isControl c = false) : chars c = [c] := by
  have hnel : c.toNat ≠ 0x85 := by
    rw [isControl_eq_false_iff] at h
    omega
  rw [chars, if_neg hnel, h, if_neg Bool.false_ne_true]

/-- What is written for a character is no control character. -/
theorem not_isControl_of_mem_chars {c x : Char} (h : x ∈ chars c) : isControl x = false := by
  by_cases hc : isControl c = true
  · unfold chars at h
    rw [if_pos hc] at h
    rw [isControl_iff] at hc
    split at h
    · rcases List.mem_pair.1 h with rfl | rfl <;> rfl
    · rcases List.mem_pair.1 h with rfl | rfl
      · rfl
      · rw [isControl_eq_false_iff, toNat_ascii (by omega)]
        omega
  · rw [Bool.not_eq_true] at hc
    rw [chars_of_not hc, List.mem_singleton] at h
    rwa [h]

/-- What is written for a character is characters. -/
theorem encodeRune_eq (c : Char) : encodeRune c.toNat = (chars c).flatMap Utf8.encode := by
  by_cases hc : isControl c = true
  · unfold encodeRune chars
    rw [if_pos hc]
    rw [isControl_iff] at hc
    rw [if_neg (by omega)]
    by_cases hnel : c.toNat = 0x85
    · rw [if_pos (by omega), if_pos hnel]
      rfl
    · have hnat : ((c.toNat : Int) - 0x40).toNat = c.toNat - 0x40 := by omega
      rw [if_neg (by omega), if_pos (by omega), if_neg hnel, hnat]
      simp only [List.flatMap_cons, List.flatMap_nil, List.append_nil,
        encode_ascii (show c.toNat - 0x40 < 0x80 by omega)]
      rfl
  · have hvalid : c.toNat.isValidChar := c.valid
    rw [Bool.not_eq_true] at hc
    rw [chars_of_not hc, List.flatMap_singleton]
    rw [isControl_eq_false_iff] at hc
    unfold encodeRune
    by_cases hascii : c.toNat < 0x80
    · have hnat : ((c.toNat : Int) % 256).toNat = c.toNat := by omega
      have hencode := encode_ascii hascii
      rw [Char.ofNat_toNat] at hencode
      rw [if_pos (by omega), hnat, hencode]
    · rw [if_neg (by omega), if_neg (by omega), if_neg (by omega), Int.toNat_natCast,
        if_pos hvalid, Char.ofNat_toNat]

/-! ## Texts -/

theorem hasControl_iff (s : Bytes) :
    hasControl s = true ↔ ∃ g ∈ Utf8.decode s, isControl g.toChar = true := by
  rw [hasControl, List.any_eq_true]
  constructor
  · rintro ⟨g, hmem, hg⟩
    cases g with
    | char c => exact ⟨_, hmem, hg⟩
    | stray b => cases hg
  · rintro ⟨g, hmem, hg⟩
    cases g with
    | char c => exact ⟨_, hmem, hg⟩
    | stray b => cases hg

theorem encode_of_none {s : Bytes} (h : ∀ g ∈ Utf8.decode s, isControl g.toChar = false) :
    encode s = s := by
  have hnone : ¬ hasControl s = true := by
    rw [hasControl_iff]
    rintro ⟨g, hmem, hg⟩
    rw [h g hmem] at hg
    cases hg
  rw [encode, if_neg hnone]

theorem encode_of_some {s : Bytes} (h : ∃ g ∈ Utf8.decode s, isControl g.toChar = true) :
    encode s = (Utf8.decode s).flatMap fun g => encodeRune g.toChar.toNat := by
  rw [encode, if_pos ((hasControl_iff s).2 h)]
  rfl

/-- Characters written one by one. -/
theorem flatMap_encodeRune (gs : List Glyph) :
    (gs.flatMap fun g => encodeRune g.toChar.toNat) =
      (gs.flatMap fun g => chars g.toChar).flatMap Utf8.encode := by
  rw [List.flatMap_assoc]
  exact List.flatMap_congr fun g _ => encodeRune_eq g.toChar

/-- Nothing that is written is read as a control character. -/
theorem not_isControl_of_mem_decode_encode {s : Bytes} {g : Glyph}
    (h : g ∈ Utf8.decode (encode s)) : isControl g.toChar = false := by
  by_cases hsome : ∃ g ∈ Utf8.decode s, isControl g.toChar = true
  · rw [encode_of_some hsome, flatMap_encodeRune, Utf8.decode_chars] at h
    obtain ⟨x, hx, rfl⟩ := List.mem_map.1 h
    obtain ⟨g', -, hg'⟩ := List.mem_flatMap.1 hx
    exact not_isControl_of_mem_chars hg'
  · have hnone : ∀ g ∈ Utf8.decode s, isControl g.toChar = false := by
      intro g hmem
      rw [← Bool.not_eq_true]
      exact fun hg => hsome ⟨g, hmem, hg⟩
    rw [encode_of_none hnone] at h
    exact hnone g h

/-- A text of characters is written character by character, whether it holds a control character or
not. -/
theorem encode_of_chars (cs : List Char) :
    encode (cs.flatMap Utf8.encode) = cs.flatMap fun c => encodeRune c.toNat := by
  have hdecode := Utf8.decode_chars cs
  by_cases hsome : ∃ g ∈ Utf8.decode (cs.flatMap Utf8.encode), isControl g.toChar = true
  · rw [encode_of_some hsome, hdecode, List.flatMap_map]
    rfl
  · have hnone : ∀ c ∈ cs, isControl c = false := by
      intro c hmem
      rw [← Bool.not_eq_true]
      exact fun hc => hsome ⟨.char c, hdecode ▸ List.mem_map_of_mem hmem, hc⟩
    rw [encode_of_none]
    · refine List.flatMap_congr fun c hmem => ?_
      rw [encodeRune_eq, chars_of_not (hnone c hmem), List.flatMap_singleton]
    · rw [hdecode]
      intro g hmem
      obtain ⟨c, hc, rfl⟩ := List.mem_map.1 hmem
      exact hnone c hc

end Terminal

/-! ## What is offered -/

def Call.offered? : Call → Option Bytes
  | write offered _ => some offered
  | flush => none

/-- The texts that were offered to a device, call by call. -/
def Device.offers (d : Device) : List Bytes := d.calls.filterMap Call.offered?

theorem Device.offers_write (d : Device) (s : Bytes) :
    (d.write s).1.offers = d.offers ++ [s] := by
  simp [offers, calls, write, Call.offered?]

/-- Texts are offered to a device one after the other. -/
def Device.writeEach (d : Device) (texts : List Bytes) : Device :=
  texts.foldl (fun d s => (d.write s).1) d

theorem Device.offers_writeEach (d : Device) (texts : List Bytes) :
    (d.writeEach texts).offers = d.offers ++ texts := by
  induction texts generalizing d with
  | nil => exact (List.append_nil _).symm
  | cons s texts ih =>
    show ((d.write s).1.writeEach texts).offers = _
    rw [ih, offers_write, List.append_assoc]
    rfl

theorem Device.offers_flush (d : Device) : d.flush.1.offers = d.offers := by
  simp [offers, calls, flush, Call.offered?]

namespace Stream

/-- No buffer stands before the device. -/
def Direct : Stream → Prop
  | buffered _ _ => False
  | _ => True

theorem write_offers {s : Stream} (h : s.Direct) (text : Bytes) :
    (s.write text).1.Direct ∧ (s.write text).1.device.offers = s.device.offers ++ [text] := by
  cases s with
  | flushing d => exact ⟨trivial, d.offers_write text⟩
  | plain d => exact ⟨trivial, d.offers_write text⟩
  | buffered d b => exact h.elim

theorem writeText_offers {s : Stream} (h : s.Direct) (text : Bytes) :
    (s.writeText text).1.Direct ∧
      (s.writeText text).1.device.offers = s.device.offers ++ [text] := by
  cases s with
  | flushing d => exact write_offers h text
  | plain d => exact write_offers h text
  | buffered d b => exact h.elim

theorem flush_offers {s : Stream} (h : s.Direct) :
    s.flush.1.Direct ∧ s.flush.1.device.offers = s.device.offers := by
  cases s with
  | flushing d => exact ⟨trivial, d.offers_flush⟩
  | plain d => exact ⟨trivial, rfl⟩
  | buffered d b => exact h.elim

/-- The stream `s` is what calls make of the stream `before`: these texts are handed to it, one in
each call, and it may be flushed at any time. -/
inductive Handed (before : Stream) : List Bytes → Stream → Prop
  | refl : Handed before [] before
  | write {texts : List Bytes} {s : Stream} (h : Handed before texts s) (text : Bytes) :
    Handed before (texts ++ [text]) (s.write text).1
  | writeText {texts : List Bytes} {s : Stream} (h : Handed before texts s) (text : Bytes) :
    Handed before (texts ++ [text]) (s.writeText text).1
  | flush {texts : List Bytes} {s : Stream} (h : Handed before texts s) :
    Handed before texts s.flush.1

theorem Handed.trans {texts texts' : List Bytes} {before s s' : Stream}
    (h : before.Handed texts s) (h' : s.Handed texts' s') :
    before.Handed (texts ++ texts') s' := by
  induction h' with
  | refl =>
    rw [List.append_nil]
    exact h
  | write _ text ih =>
    rw [← List.append_assoc]
    exact ih.write text
  | writeText _ text ih =>
    rw [← List.append_assoc]
    exact ih.writeText text
  | flush _ ih => exact ih.flush

/-- A device without a buffer is offered what the stream is handed. -/
theorem Handed.offers {texts : List Bytes} {before s : Stream} (h : before.Handed texts s)
    (hdirect : before.Direct) :
    s.Direct ∧ s.device.offers = before.device.offers ++ texts := by
  induction h with
  | refl => exact ⟨hdirect, (List.append_nil _).symm⟩
  | write _ text ih =>
    rw [← List.append_assoc, ← ih.2]
    exact write_offers ih.1 text
  | writeText _ text ih =>
    rw [← List.append_assoc, ← ih.2]
    exact writeText_offers ih.1 text
  | flush _ ih =>
    rw [← ih.2]
    exact flush_offers ih.1

/-- The stream is handed these texts, one in each call, and so is its device if there is no buffer
between them. -/
structure Sees (texts : List Bytes) (before s : Stream) : Prop where
  handed : before.Handed texts s
  offers : before.Direct → s.Direct ∧ s.device.offers = before.device.offers ++ texts

/-- It is handed the text in one call or not at all. -/
def MaySee (text : Bytes) (before s : Stream) : Prop := before.Sees [text] s ∨ before.Sees [] s

theorem Handed.sees {texts : List Bytes} {before s : Stream} (h : before.Handed texts s) :
    before.Sees texts s :=
  ⟨h, h.offers⟩

theorem Sees.refl (s : Stream) : Sees [] s s := Handed.refl.sees

theorem Sees.trans {texts texts' : List Bytes} {before s s' : Stream} (h : Sees texts before s)
    (h' : Sees texts' s s') : Sees (texts ++ texts') before s' :=
  (h.handed.trans h'.handed).sees

theorem write_sees (s : Stream) (text : Bytes) : Sees [text] s (s.write text).1 :=
  (Handed.refl.write text).sees

theorem writeText_sees (s : Stream) (text : Bytes) : Sees [text] s (s.writeText text).1 :=
  (Handed.refl.writeText text).sees

theorem flush_sees (s : Stream) : Sees [] s s.flush.1 := Handed.refl.flush.sees

end Stream

namespace Output

/-- The first stream is handed a text in one call, and any other in one call or not at all. A device
without a buffer is offered the text in that call; a buffer passes it on by and by. -/
inductive Offered (text : Bytes) : Output → Output → Prop
  | nil : Offered text [] []
  | cons {before s : Stream} {o o' : Output} (first : before.Sees [text] s)
    (rest : List.Forall₂ (Stream.MaySee text) o o') : Offered text (before :: o) (s :: o')

variable {text : Bytes}

theorem Offered.maySee {o o' : Output} (h : Offered text o o') :
    List.Forall₂ (Stream.MaySee text) o o' := by
  cases h with
  | nil => exact .nil
  | cons first rest => exact .cons (.inl first) rest

theorem Offered.lone {before : Stream} {o : Output} (h : Offered text [before] o) :
    ∃ s, o = [s] ∧ before.Sees [text] s := by
  cases h with
  | cons first rest =>
    cases rest
    exact ⟨_, rfl, first⟩

theorem writeAll_offered (o : Output) : Offered text o (writeAll text o).1 := by
  induction o with
  | nil => exact .nil
  | cons stream streams ih =>
    have hfirst := stream.write_sees text
    have hrefl : List.Forall₂ (Stream.MaySee text) streams streams :=
      List.forall₂_same.2 fun s _ => .inr (.refl s)
    simp only [writeAll]
    split
    · rename_i stream' n heq
      rw [heq] at hfirst
      split
      · exact .cons hfirst ih.maySee
      · exact .cons hfirst hrefl
    · rename_i stream' reply _ heq
      rw [heq] at hfirst
      exact .cons hfirst hrefl

theorem write_offered (o : Output) : Offered text o (o.write text).1 := by
  unfold write
  split
  · exact .cons (Stream.write_sees _ text) .nil
  · exact writeAll_offered o

theorem writeText_offered (o : Output) : Offered text o (o.writeText text).1 := by
  unfold writeText
  split
  · exact .cons (Stream.writeText_sees _ text) .nil
  · exact writeAll_offered o

theorem flush_sees (o : Output) : List.Forall₂ (Stream.Sees []) o o.flush.1 := by
  induction o with
  | nil => exact .nil
  | cons stream streams ih =>
    have hfirst := stream.flush_sees
    simp only [flush]
    split
    · rename_i stream' message heq
      rw [heq] at hfirst
      exact .cons hfirst (List.forall₂_same.2 fun s _ => .refl s)
    · rename_i stream' n error heq
      rw [heq] at hfirst
      generalize flush streams = flushed at ih ⊢
      split <;> exact .cons hfirst ih

theorem forall₂_trans {R S T : Stream → Stream → Prop} (hcomp : ∀ a b c, R a b → S b c → T a c)
    {o o' o'' : Output} (h : List.Forall₂ R o o') (h' : List.Forall₂ S o' o'') :
    List.Forall₂ T o o'' := by
  induction h generalizing o'' with
  | nil =>
    cases h'
    exact .nil
  | cons hfirst _ ih =>
    cases h' with
    | cons hfirst' hrest' => exact .cons (hcomp _ _ _ hfirst hfirst') (ih hrest')

theorem Offered.flush {o o' : Output} (h : Offered text o o') : Offered text o o'.flush.1 := by
  have hflush := flush_sees o'
  generalize o'.flush.1 = o'' at hflush
  cases h with
  | nil =>
    cases hflush
    exact .nil
  | cons first rest =>
    cases hflush with
    | cons hfirst hrest =>
      refine .cons (first.trans hfirst) (forall₂_trans ?_ rest hrest)
      exact fun _ _ _ hsee hflush => hsee.imp (·.trans hflush) (·.trans hflush)

end Output

namespace Session

variable {s : Session} {before : Output} {text : Bytes}

theorem afterCall_offered {called : Output × Reply} (h : before.Offered text called.1) :
    before.Offered text (s.afterCall called).1.output := by
  unfold afterCall
  split
  · exact h
  · rename_i output n e
    obtain ⟨s', heq, -, -, houtput⟩ := halt_eq { s with output := output } (.output e)
    rw [heq, houtput]
    exact h.flush
  · exact h

/-- A text is offered to the streams in the form for terminals; flushing them offers nothing
more. -/
theorem write_offered (s : Session) (text : Bytes) :
    s.output.Offered (Terminal.encode text) (s.write text).1.output := by
  have hcall : s.output.Offered (Terminal.encode text)
      (if Terminal.hasControl text then s.output.write (Terminal.encode text)
        else s.output.writeText text).1 := by
    split
    · exact s.output.write_offered
    · rename_i hcontrol
      rw [Terminal.encode, if_neg hcontrol]
      exact s.output.writeText_offered
  have hafter := afterCall_offered (s := s) hcall
  simp only [write]
  generalize s.afterCall _ = ended at hafter ⊢
  split
  · exact afterCall_offered hafter.flush
  · exact hafter

/-- Whatever text a session writes, its streams are offered no control character above ASCII as
UTF-8, and one that is offered anything is handed all of it in one call. A text without such
characters is offered as it is. One that has some, or that is valid UTF-8, is offered as its
characters are written one by one. -/
theorem write_offers_no_control (s : Session) (text : Bytes) :
    s.output.Offered (Terminal.encode text) (s.write text).1.output ∧
      (∀ g ∈ Utf8.decode (Terminal.encode text), Terminal.isControl g.toChar = false) ∧
      ((∀ g ∈ Utf8.decode text, Terminal.isControl g.toChar = false) →
        Terminal.encode text = text) ∧
      ((∃ cs : List Char, text = cs.flatMap Utf8.encode) ∨
          (∃ g ∈ Utf8.decode text, Terminal.isControl g.toChar = true) →
        Terminal.encode text =
          (Utf8.decode text).flatMap fun g => Terminal.encodeRune g.toChar.toNat) := by
  refine ⟨s.write_offered text, fun g => Terminal.not_isControl_of_mem_decode_encode,
    Terminal.encode_of_none, ?_⟩
  rintro (⟨cs, rfl⟩ | hsome)
  · rw [Terminal.encode_of_chars, Utf8.decode_chars, List.flatMap_map]
    rfl
  · exact Terminal.encode_of_some hsome

/-- A stray byte in front of a control sequence introducer becomes the replacement character. A
device is offered all of it in one call, and so is a buffer. -/
theorem write_offers_no_control_stray :
    Utf8.decode [0xff, 0xc2, 0x9b] = [.stray 0xff, .char '\u009b'] ∧
      (∃ a, (write { output := [.plain {}] } [0xff, 0xc2, 0x9b]).1.output = [a] ∧
        a.device.offers = [[0xef, 0xbf, 0xbd, 0x1b, 0x5b]]) ∧
      ∃ a, (write { output := [.buffered {} {}] } [0xff, 0xc2, 0x9b]).1.output = [a] ∧
        (Stream.buffered {} {}).Handed [[0xef, 0xbf, 0xbd, 0x1b, 0x5b]] a := by
  have hdecode : Utf8.decode [0xff, 0xc2, 0x9b] = [.stray 0xff, .char '\u009b'] := by
    decide +kernel
  have hcontrol : ∃ g ∈ Utf8.decode [0xff, 0xc2, 0x9b], Terminal.isControl g.toChar = true := by
    rw [hdecode]
    exact ⟨.char '\u009b', List.mem_of_getElem? (i := 1) rfl, by decide +kernel⟩
  have hencode : Terminal.encode [0xff, 0xc2, 0x9b] = [0xef, 0xbf, 0xbd, 0x1b, 0x5b] := by
    rw [(write_offers_no_control {} [0xff, 0xc2, 0x9b]).2.2.2 (.inr hcontrol), hdecode]
    decide +kernel
  have hsees := fun stream =>
    (write_offers_no_control { output := [stream] } [0xff, 0xc2, 0x9b]).1.lone
  simp only [hencode] at hsees
  obtain ⟨a, ha, hoffered⟩ := hsees (.plain {})
  obtain ⟨a', ha', hoffered'⟩ := hsees (.buffered {} {})
  exact ⟨hdecode, ⟨a, ha, (hoffered.offers trivial).2⟩, a', ha', hoffered'.handed⟩

end Session

end StackLang
