import StackLang.Text.Bytes

/-!
# Files

The files that the command can find: those below its working directory, and a few that every system
has. A path is followed part by part, and each part but the last has to be a directory.
-/

namespace StackLang.Command

/-- Files by their paths. A path that ends in a slash stands for a directory without files. -/
abbrev Files := List (Bytes × Bytes)

/-- Why a path leads nowhere. -/
inductive PathError where
  | missing
  | notDirectory
  | tooLong
deriving DecidableEq, Repr

def PathError.message : PathError → Bytes
  | missing => lit "no such file or directory"
  | notDirectory => lit "not a directory"
  | tooLong => lit "file name too long"

/-! ## Paths -/

def slash : UInt8 := 0x2f

/-- The parts of a path between slashes. -/
def pathParts : Bytes → List Bytes
  | [] => [[]]
  | b :: r =>
    if b = slash then [] :: pathParts r
    else
      match pathParts r with
      | [] => [[b]]
      | p :: ps => (b :: p) :: ps

/-- The most bytes in a part of a path. -/
def partLimit : Nat := 255

/-- The most bytes in a path. -/
def pathLimit : Nat := 4095

/-- Where a path leads: to a file, or to a directory with the files below it and the directories
above it, nearest first. Above the topmost directory is that directory again. -/
inductive Node where
  | file (content : Bytes)
  | folder (below : Files) (above : List Files)
deriving DecidableEq, Repr

namespace Node

/-- The files in the directory `name`. -/
def filesIn (name : Bytes) (files : Files) : Files :=
  files.filterMap fun f =>
    if (name ++ [slash]).isPrefixOf f.1 then some (f.1.drop (name.length + 1), f.2) else none

/-- Follow one part of a path. -/
def follow (n : Node) (part : Bytes) : Except PathError Node :=
  match n with
  | file _ => .error .notDirectory
  | folder below above =>
    if part = [] ∨ part = lit "." then .ok n
    else if part = lit ".." then
      match above with
      | [] => .ok n
      | files :: above => .ok (folder files above)
    else if partLimit < part.length then .error .tooLong
    else
      match below.lookup part, filesIn part below with
      | some content, _ => .ok (file content)
      | none, [] => .error .missing
      | none, files => .ok (folder files (below :: above))

end Node

/-! ## Directories -/

structure Directory where
  files : Files := []
deriving DecidableEq, Repr

namespace Directory

/-- Where a path leads. Between the working directory and the root, which holds the files `system`,
is one more directory, of which nothing is known. -/
def locate (d : Directory) (system : Files) (path : Bytes) : Except PathError Node :=
  if pathLimit < path.length then .error .tooLong
  else
    let start : Node := if path.head? = some slash then .folder system [] else .folder d.files [[], system]
    (pathParts path).foldlM Node.follow start

/-- The content of a file in the working directory. -/
def find? (d : Directory) (name : Bytes) : Option Bytes := d.files.lookup name

/-- The content of the file at a path, or the message of an error. -/
def read (d : Directory) (system : Files) (path : Bytes) : Except Bytes Bytes :=
  match d.locate system path with
  | .ok (.file content) => .ok content
  | .ok (.folder _ _) => .error (lit "read " ++ path ++ lit ": is a directory")
  | .error e => .error (lit "open " ++ path ++ lit ": " ++ e.message)

/-- Write a file, in place of any of the same name. A directory of that name stays as it is. -/
def write (d : Directory) (name content : Bytes) : Directory :=
  match Node.filesIn name d.files with
  | [] => ⟨(name, content) :: d.files.filter fun f => f.1 ≠ name⟩
  | _ :: _ => d

end Directory

end StackLang.Command
