import StackLang.Program.Draft

/-!
# Reading programs line by line

An interactive program goes on over as many lines as it takes: as long as the lines so far are
incomplete, the next line belongs to them too.

* `takeLine` cuts one line off the input.
* `readLine` adds a line to a program under way.
* `programs` gives the programs in a list of lines.
-/

namespace StackLang.Command

/-! ## Lines -/

/-- The most bytes that come as one line. -/
def lineCapacity : Nat := 4096

/-- A line without its ending. A line that is not `whole` was cut at `lineCapacity`. -/
structure Line where
  text : Bytes
  whole : Bool
deriving DecidableEq, Repr

/-- A carriage return at the end belongs to the line ending. -/
def dropReturn (s : Bytes) : Bytes := if s.getLast? = some 0x0d then s.dropLast else s

/-- The bytes ahead of the first newline, though no more than `n`. -/
def upToNewline : (n : Nat) → Bytes → Bytes
  | n + 1, b :: r => if b = Byte.newline then [] else b :: upToNewline n r
  | _, _ => []

/-- The first line of the input, and the rest. What does not hold a newline within
`lineCapacity` bytes is cut there, though never between the two bytes of a line ending. -/
def takeLine : Bytes → Option (Line × Bytes)
  | [] => none
  | b :: r =>
    let s := b :: r
    let text := upToNewline lineCapacity s
    if text.length < lineCapacity then
      match s.drop text.length with
      | [] => some (⟨text, true⟩, [])
      | _ :: rest => some (⟨dropReturn text, true⟩, rest)
    else some (⟨dropReturn text, false⟩, s.drop (dropReturn text).length)

theorem dropReturn_length (s : Bytes) : s.length ≤ (dropReturn s).length + 1 := by
  unfold dropReturn
  split
  · simp only [List.length_dropLast]
    omega
  · omega

theorem takeLine_length {s rest : Bytes} {line : Line} (h : takeLine s = some (line, rest)) :
    rest.length < s.length := by
  cases s with
  | nil => cases h
  | cons b r =>
    unfold takeLine at h
    simp only at h
    split at h
    · split at h
      · cases h
        exact Nat.zero_lt_succ _
      · rename_i hrest
        cases h
        have hlength := congrArg List.length hrest
        simp only [List.length_drop, List.length_cons] at hlength ⊢
        omega
    · rename_i hfull
      cases h
      have := dropReturn_length (upToNewline lineCapacity (b :: r))
      simp only [lineCapacity] at *
      simp only [List.length_drop, List.length_cons]
      omega

/-- All lines of a text. -/
def linesOf (s : Bytes) : List Line :=
  match h : takeLine s with
  | none => []
  | some (line, rest) =>
    have := takeLine_length h
    line :: linesOf rest
termination_by s.length

/-! ## Programs -/

/-- A program under way with one more line. -/
def joinLine (pending line : Bytes) : Bytes :=
  if pending.isEmpty then line else pending ++ Byte.newline :: line

/-- What a line leads to: a program that needs more lines, or one to evaluate. -/
inductive Reading where
  | more (pending : Bytes)
  | program (src : Bytes)
deriving DecidableEq, Repr

def readLine (pending line : Bytes) : Reading :=
  let src := joinLine pending line
  if incomplete src then .more src else .program src

/-- The programs in a list of lines that follows a program under way. -/
def programs (pending : Bytes) : List Bytes → List Bytes
  | [] => []
  | line :: lines =>
    match readLine pending line with
    | .more pending => programs pending lines
    | .program src => src :: programs [] lines

/-- What is shown ahead of each line: the first of a program, or a further one. -/
def prompt (pending : Bytes) : Bytes := if pending.isEmpty then lit "> " else lit ". "

end StackLang.Command
