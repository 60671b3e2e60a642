import StackLang.Command.Reader
import StackLang.Text.Utf8

/-!
# History

The programs of earlier sessions and of this one, oldest first, each on a line. There are at most
`History.limit` of them, and no program stands twice in a row.
-/

namespace StackLang.Command

structure History where
  entries : List Bytes := []
deriving DecidableEq, Repr

namespace History

def limit : Nat := 1000

/-- A history of the latest entries; the oldest ones go if there are too many. -/
def latest (entries : List Bytes) : History := ⟨entries.drop (entries.length - limit)⟩

/-- The entries of a file. Reading stops at a line that is too long or not UTF-8. -/
def ofFile (s : Bytes) : History :=
  latest (((linesOf s).takeWhile fun l => l.whole && Utf8.valid l.text).map Line.text)

/-- Add a program, with its lines joined by spaces. -/
def add (h : History) (src : Bytes) : History :=
  let entry := src.map fun b => if b = Byte.newline then Byte.space else b
  if h.entries.getLast? = some entry then h else latest (h.entries ++ [entry])

def toFile (h : History) : Bytes := h.entries.flatMap (· ++ [Byte.newline])

/-- The name of the file in the home directory. -/
def fileName : String := ".gostack_history"

end History

end StackLang.Command
