import Mathlib
import StackLang.Log.Lines

/-!
# Lines from chunks

A text falls into complete lines and a rest in one way only. A line log that is given the text in
chunks logs these lines and holds that rest, wherever the chunks are cut; when it is closed, the
rest is logged too, unless it is empty.

* `LineLog.Parts`: a text as lines and a rest (`exists_parts`, `Parts.unique`).
* `LineLog.drain_parts`: what a call makes of the bytes that are held.
* `LineLog.write_parts`, `LineLog.writeAll_parts`: what a log makes of a chunk, and of many.
* `LineLog.lines_regardless_of_chunks`: the lines of a text that comes in chunks.
-/

namespace StackLang.LineLog

/-! ## Lines of a text -/

/-- A text is made up of lines, each with a newline behind it, and a rest without any newline. -/
structure Parts (s : Bytes) (lines : List Bytes) (rest : Bytes) : Prop where
  text : s = lines.flatMap (· ++ [Byte.newline]) ++ rest
  whole : ∀ line ∈ lines, Byte.newline ∉ line
  rest : Byte.newline ∉ rest

theorem parts_of_not_mem {s : Bytes} (h : Byte.newline ∉ s) : Parts s [] s :=
  ⟨rfl, by simp, h⟩

theorem Parts.cons {s rest line : Bytes} {lines : List Bytes} (h : Parts s lines rest)
    (hline : Byte.newline ∉ line) : Parts (line ++ Byte.newline :: s) (line :: lines) rest := by
  refine ⟨?_, List.forall_mem_cons.2 ⟨hline, h.whole⟩, h.rest⟩
  rw [h.text]
  simp

theorem Parts.uncons {s rest line : Bytes} {lines : List Bytes} (h : Parts s (line :: lines) rest) :
    ∃ s', s = line ++ Byte.newline :: s' ∧ Byte.newline ∉ line ∧ Parts s' lines rest := by
  obtain ⟨hline, hwhole⟩ := List.forall_mem_cons.1 h.whole
  refine ⟨_, ?_, hline, rfl, hwhole, h.rest⟩
  rw [h.text]
  simp

/-- The lines of a text that goes on: those that were complete already, and those that the rest and
what follows on it make up. -/
theorem Parts.append {s s' rest rest' : Bytes} {lines lines' : List Bytes} (h : Parts s lines rest)
    (h' : Parts (rest ++ s') lines' rest') : Parts (s ++ s') (lines ++ lines') rest' := by
  refine ⟨?_, List.forall_mem_append.2 ⟨h.whole, h'.whole⟩, h'.rest⟩
  calc s ++ s' = lines.flatMap (· ++ [Byte.newline]) ++ (rest ++ s') := by
        rw [h.text, List.append_assoc]
    _ = (lines ++ lines').flatMap (· ++ [Byte.newline]) ++ rest' := by
        rw [h'.text, List.flatMap_append, List.append_assoc]

theorem exists_parts (s : Bytes) : ∃ lines rest, Parts s lines rest := by
  induction hlength : s.length using Nat.strongRecOn generalizing s with
  | ind n ih =>
    by_cases hmem : Byte.newline ∈ s
    · obtain ⟨line, s', rfl, hline⟩ := List.eq_append_cons_of_mem hmem
      obtain ⟨lines, rest, h⟩ := ih s'.length (by simp at hlength; omega) s' rfl
      exact ⟨line :: lines, rest, h.cons hline⟩
    · exact ⟨[], s, parts_of_not_mem hmem⟩

/-- The first line of a text, and the text from its newline on. -/
theorem split_line {line s : Bytes} (hline : Byte.newline ∉ line)
    (hs : ∀ b ∈ s.head?, b = Byte.newline) :
    (line ++ s).takeWhile (· != Byte.newline) = line ∧
      (line ++ s).dropWhile (· != Byte.newline) = s := by
  have hall : ∀ b ∈ line, (b != Byte.newline) = true := by
    intro b hb
    rw [bne_iff_ne]
    rintro rfl
    exact hline hb
  rw [List.takeWhile_append_of_pos hall, List.dropWhile_append_of_pos hall]
  cases s with
  | nil => simp
  | cons b s => simp [hs b rfl]

theorem line_inj {line line' s s' : Bytes} (hline : Byte.newline ∉ line)
    (hline' : Byte.newline ∉ line') (h : line ++ Byte.newline :: s = line' ++ Byte.newline :: s') :
    line = line' ∧ s = s' := by
  obtain ⟨htake, hdrop⟩ := split_line (s := Byte.newline :: s) hline (by simp)
  obtain ⟨htake', hdrop'⟩ := split_line (s := Byte.newline :: s') hline' (by simp)
  rw [h] at htake hdrop
  exact ⟨htake.symm.trans htake', List.tail_eq_of_cons_eq (hdrop.symm.trans hdrop')⟩

/-- A text falls into lines and a rest in one way only. -/
theorem Parts.unique {s rest rest' : Bytes} {lines lines' : List Bytes} (h : Parts s lines rest)
    (h' : Parts s lines' rest') : lines' = lines ∧ rest' = rest := by
  induction lines generalizing s lines' with
  | nil =>
    have htext : s = rest := h.text
    subst htext
    cases lines' with
    | nil => exact ⟨rfl, h'.text.symm⟩
    | cons line' lines' =>
      obtain ⟨s', rfl, -⟩ := h'.uncons
      exact absurd (by simp) h.rest
  | cons line lines ih =>
    obtain ⟨s', rfl, hline, h⟩ := h.uncons
    cases lines' with
    | nil =>
      have htext : line ++ Byte.newline :: s' = rest' := h'.text
      subst htext
      exact absurd (by simp) h'.rest
    | cons line' lines' =>
      obtain ⟨s'', heq, hline', h'⟩ := h'.uncons
      obtain ⟨rfl, rfl⟩ := line_inj hline hline' heq
      obtain ⟨rfl, rfl⟩ := ih h h'
      exact ⟨rfl, rfl⟩

/-! ## Calls -/

/-- What is not empty counts as a line in the end. -/
def lastLine (rest : Bytes) : List Bytes := if rest.isEmpty then [] else [rest]

/-- Go on with another call, unless there was a panic. -/
def Result.andThen (r : Result) (next : LineLog → Result) : Result :=
  if r.panic.isSome then r else { next r.log with lines := r.lines ++ (next r.log).lines }

/-- Chunks are taken one after the other. -/
def writeAll (l : LineLog) : List Bytes → Result
  | [] => ⟨l, [], none⟩
  | chunk :: chunks => (l.write chunk).andThen (writeAll · chunks)

/-- A text is taken in chunks, and the log is closed. -/
def writeClosed (l : LineLog) (chunks : List Bytes) : Result := (l.writeAll chunks).andThen close

theorem drain_rest (refuses : Bytes → Option Bytes) {rest : Bytes} (hrest : Byte.newline ∉ rest) :
    drain ⟨refuses, rest⟩ false = ⟨⟨refuses, rest⟩, [], none⟩ := by
  have hdrop := (split_line (s := []) hrest (by simp)).2
  rw [List.append_nil] at hdrop
  rw [drain]
  split
  · rfl
  · split
    · rename_i heq
      rw [hdrop] at heq
      cases heq
    · rfl

section

variable {refuses : Bytes → Option Bytes} (hlog : ∀ line, refuses line = none)

include hlog

/-- A complete line is logged, and the newline behind it goes with it. -/
theorem drain_line {line : Bytes} (hline : Byte.newline ∉ line) (s : Bytes) (all : Bool) :
    drain ⟨refuses, line ++ Byte.newline :: s⟩ all = (drain ⟨refuses, s⟩ all).cons line := by
  obtain ⟨htake, hdrop⟩ := split_line (s := Byte.newline :: s) hline (by simp)
  rw [drain]
  split
  · rename_i hempty
    simp at hempty
  · split
    · rename_i newline rest heq
      rw [hdrop] at heq
      cases heq
      simp only [htake, hlog]
    · rename_i heq
      rw [hdrop] at heq
      cases heq

theorem drainAll_rest {rest : Bytes} (hrest : Byte.newline ∉ rest) :
    drain ⟨refuses, rest⟩ true = ⟨⟨refuses, []⟩, lastLine rest, none⟩ := by
  obtain ⟨htake, hdrop⟩ := split_line (s := []) hrest (by simp)
  rw [List.append_nil] at htake hdrop
  rw [drain, lastLine]
  split
  · rename_i hempty
    rw [List.isEmpty_iff] at hempty
    cases hempty
    rfl
  · split
    · rename_i heq
      rw [hdrop] at heq
      cases heq
    · simp only [htake, hlog, if_true]

/-- The lines of what is held are logged; what becomes of the rest is up to the call. -/
theorem drain_parts {s rest : Bytes} {lines : List Bytes} (h : Parts s lines rest) (all : Bool) :
    drain ⟨refuses, s⟩ all =
      { drain ⟨refuses, rest⟩ all with lines := lines ++ (drain ⟨refuses, rest⟩ all).lines } := by
  induction lines generalizing s with
  | nil =>
    have htext : s = rest := h.text
    rw [htext]
    rfl
  | cons line lines ih =>
    obtain ⟨s', rfl, hline, h⟩ := h.uncons
    rw [drain_line hlog hline, ih h]
    rfl

theorem write_parts {held chunk rest : Bytes} {lines : List Bytes}
    (h : Parts (held ++ chunk) lines rest) :
    write ⟨refuses, held⟩ chunk = ⟨⟨refuses, rest⟩, lines, none⟩ := by
  have hdrain := drain_parts hlog h false
  rw [drain_rest refuses h.rest, List.append_nil] at hdrain
  exact hdrain

/-- Chunks log the lines of the text that they go on with, and the rest of it is held. -/
theorem writeAll_parts {held rest : Bytes} {chunks lines : List Bytes}
    (hheld : Byte.newline ∉ held) (h : Parts (held ++ chunks.flatten) lines rest) :
    writeAll ⟨refuses, held⟩ chunks = ⟨⟨refuses, rest⟩, lines, none⟩ := by
  induction chunks generalizing held lines with
  | nil =>
    rw [List.flatten_nil, List.append_nil] at h
    obtain ⟨rfl, rfl⟩ := (parts_of_not_mem hheld).unique h
    rfl
  | cons chunk chunks ih =>
    obtain ⟨first, middle, hfirst⟩ := exists_parts (held ++ chunk)
    obtain ⟨second, last, hsecond⟩ := exists_parts (middle ++ chunks.flatten)
    have happend := hfirst.append hsecond
    rw [List.append_assoc, ← List.flatten_cons] at happend
    obtain ⟨rfl, rfl⟩ := happend.unique h
    rw [writeAll, write_parts hlog hfirst]
    simp only [Result.andThen, Option.isSome_none, Bool.false_eq_true, if_false,
      ih hfirst.rest hsecond]

end

/-- Let a text come in chunks, to a log whose function refuses no line. The lines that were logged
and the rest that is held are those that the text falls into, and it falls into no others. A flush or
a close logs the rest as one more line, unless it is empty. However the same text is cut, the lines
are the same in the end. -/
theorem lines_regardless_of_chunks {refuses : Bytes → Option Bytes}
    (hlog : ∀ line, refuses line = none) (chunks : List Bytes) :
    ∃ lines rest,
      (∀ lines' rest', Parts chunks.flatten lines' rest' ↔ lines' = lines ∧ rest' = rest) ∧
      writeAll { refuses } chunks = ⟨{ refuses, held := rest }, lines, none⟩ ∧
      flush { refuses, held := rest } = ⟨{ refuses }, lastLine rest, none⟩ ∧
      close { refuses, held := rest } = ⟨{ refuses }, lastLine rest, none⟩ ∧
      ∀ chunks', chunks'.flatten = chunks.flatten →
        writeClosed { refuses } chunks' = ⟨{ refuses }, lines ++ lastLine rest, none⟩ := by
  obtain ⟨lines, rest, h⟩ := exists_parts chunks.flatten
  have hflush := drainAll_rest hlog h.rest
  have hwrite : ∀ chunks', chunks'.flatten = chunks.flatten →
      writeAll { refuses } chunks' = ⟨{ refuses, held := rest }, lines, none⟩ := by
    intro chunks' hsame
    rw [← hsame] at h
    exact writeAll_parts hlog List.not_mem_nil h
  refine ⟨lines, rest, fun lines' rest' => ⟨h.unique, ?_⟩, hwrite chunks rfl, hflush, hflush, ?_⟩
  · rintro ⟨rfl, rfl⟩
    exact h
  · intro chunks' hsame
    rw [writeClosed, hwrite chunks' hsame, Result.andThen]
    simp only [Option.isSome_none, Bool.false_eq_true, if_false, close, flush, hflush]

/-- Chunks that end within a line, at a newline and between two of them, and an empty one. -/
theorem lines_regardless_of_chunks_cut :
    (writeAll {} [lit "one\n", lit "\ntw", [], lit "o\nthree"]).lines =
        [lit "one", [], lit "two"] ∧
      (writeAll {} [lit "one\n", lit "\ntw", [], lit "o\nthree"]).log.held = lit "three" ∧
      (writeClosed {} [lit "one\n\ntwo\nthree"]).lines =
        [lit "one", [], lit "two", lit "three"] := by
  obtain ⟨lines, rest, hparts, hwrite, -, -, hclosed⟩ :=
    lines_regardless_of_chunks (fun _ => rfl) [lit "one\n", lit "\ntw", [], lit "o\nthree"]
  have htext : Parts (lit "one\n\ntwo\nthree") [lit "one", [], lit "two"] (lit "three") :=
    ⟨by decide +kernel, by decide +kernel, by decide +kernel⟩
  obtain ⟨rfl, rfl⟩ := (hparts _ _).1 htext
  have hwhole := hclosed [lit "one\n\ntwo\nthree"] (by decide +kernel)
  refine ⟨congrArg Result.lines hwrite, congrArg (·.log.held) hwrite, ?_⟩
  exact congrArg Result.lines hwhole

/-- A line that is refused leaves its newline behind, which makes an empty line. -/
example :
    let log : LineLog := { refuses := fun line => if line = lit "a" then some line else none }
    ((log.write (lit "a\n")).log.write (lit "b\n")).lines = [[], lit "b"] := by
  decide +kernel

end StackLang.LineLog
