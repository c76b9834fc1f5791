import FrameLang.CommandLine.Loading

/-!
# Files under their names

What is read under a name, in a tree of folders and files.

* `FileTree.enter`: the step from an entry of the tree along one part of a name.
* `FileTree.find`, `FileTree.read`: the entry under a whole name, and what is read from it.
* `FileTree.content`: what is read where a source comes from.

A path is the list of the names from the root on, so the root is the empty one.  The parts of a name
stand between slashes.  An empty part and `.` stay where they are, and `..` goes back to the folder
around.  All three need a folder to stand in, so a slash after the name of a file is a fault.
-/

namespace FrameLang.CommandLine

def maxPartLength : Nat := 255

def maxNameLength : Nat := 4095

abbrev Path := List String

inductive Entry
  | folder (path : Path)
  | file (content : ByteArray)

/-- Folders and files.  The folders around those that are given exist too. -/
structure FileTree where
  files : List (Path × ByteArray) := []
  folders : List Path := []
  /-- The folder where a name starts that does not start with a slash. -/
  current : Path := []

namespace FileTree

/-- Whether a path that is no file's leads to a folder. -/
def isFolder (t : FileTree) (path : Path) : Bool :=
  (t.current :: t.folders ++ t.files.map (·.1)).any (path.isPrefixOf ·)

def entry? (t : FileTree) (path : Path) : Option Entry :=
  match t.files.lookup path with
  | some content => some (.file content)
  | none => if t.isFolder path then some (.folder path) else none

def enter (t : FileTree) : Entry → String → Except ReadFault Entry
  | .file _, _ => .error .notFolder
  | .folder path, part =>
    if part = "" ∨ part = "." then .ok (.folder path)
    else if part = ".." then .ok (.folder path.dropLast)
    else if maxPartLength < part.utf8ByteSize then .error .nameTooLong
    else
      match t.entry? (path ++ [part]) with
      | some entry => .ok entry
      | none => .error .missing

def start (t : FileTree) (name : String) : Path :=
  if name.toList.head? = some '/' then [] else t.current

def parts (name : String) : List String := (name.toList.splitOn '/').map String.ofList

def find (t : FileTree) (name : String) : Except ReadFault Entry :=
  if name = "" then .error .missing
  else if maxNameLength < name.utf8ByteSize then .error .nameTooLong
  else (parts name).foldlM t.enter (.folder (t.start name))

def read (t : FileTree) (name : String) : Except ReadFault ByteArray := do
  match ← t.find name with
  | .file content => .ok content
  | .folder _ => .error .isFolder

/-- What is read where a source comes from, if `input` is the standard input. -/
def content (t : FileTree) (input : ByteArray) : Origin → Except ReadFault ByteArray
  | .argument _ => .ok .empty
  | .standardInput => .ok input
  | .file name => t.read name

end FileTree

end FrameLang.CommandLine
