import Std.Data.TreeMap.Basic
import TripleStore.Error
import TripleStore.Path

/-!
# File trees

Builders and readers work on a tree of directories and files. A place in the tree is the list of
names that lead to it from a root: from the working directory, `.`, or from the root of the file
system, `/`. Both are always there. A tree is known by `FileTree.lookup`. A path is followed by
`FileTree.locate`, and every name on the way must be that of a directory. An operation either fails
with a fault and leaves the tree as it was, or answers the changed tree.

Where the working directory stands below `/` is left open. So the way up from it ends in it, and
`../x` names what `x` names; and no place has two names, one that starts at the working directory
and one that starts at `/`. What is said of a tree is said of programs that use neither.
-/

namespace TripleStore

/-! ## Places -/

/-- Names from a root down to a file or directory, the root first. -/
abbrev Place := List String

namespace Place

/-- Where a path starts. -/
def start (p : Path) : Place := if p.rooted then ["/"] else ["."]

/-- The working directory or the root of the file system. -/
def isRoot (l : Place) : Bool := l == ["."] || l == ["/"]

/-- The place above, if there is one. -/
def up (l : Place) : Place := if l.isRoot then l else l.dropLast

/-- The place that a name leads to. -/
def follow (l : Place) (name : String) : Place := if name = ".." then l.up else l ++ [name]

end Place

/-! ## Trees -/

/-- What a place holds. -/
inductive Entry
  | directory
  | file (content : ByteArray)
  deriving DecidableEq

/-- Directories and files by place, and the first number that no fresh name has had yet. -/
structure FileTree where
  entries : Std.TreeMap Place Entry
  given : Nat

namespace FileTree

/-- A tree of nothing but its roots. -/
def empty : FileTree := ⟨∅, 0⟩

/-- What a place holds. -/
def lookup (t : FileTree) (l : Place) : Option Entry :=
  if l.isRoot then some .directory else t.entries[l]?

/-- Sets what a place holds. -/
def put (t : FileTree) (l : Place) (e : Entry) : FileTree :=
  { t with entries := t.entries.insert l e }

/-- Drops a single place. -/
def drop (t : FileTree) (l : Place) : FileTree := { t with entries := t.entries.erase l }

/-- Drops a place and everything below it. -/
def prune (t : FileTree) (l : Place) : FileTree :=
  { t with entries := t.entries.filter fun q _ => !l.isPrefixOf q }

/-- Names of the files and directories in a directory, unsorted. -/
def childNames (t : FileTree) (l : Place) : List String :=
  t.entries.keys.filterMap fun q => if q.dropLast = l then q.getLast? else none

/-! ## Following paths -/

/-- Checks that a place is a directory. -/
def enter (t : FileTree) (l : Place) : Except FileFault Unit :=
  match t.lookup l with
  | none => .error .notFound
  | some (.file _) => .error .notADirectory
  | some .directory => .ok ()

/-- Follows names from a place on. Each name is followed from a directory; the last one need not
name anything. -/
def walk (t : FileTree) (l : Place) : List String → Except FileFault Place
  | [] => .ok l
  | name :: names => do
    t.enter l
    t.walk (l.follow name) names

/-- The place that a path names. All but its last name must be there. -/
def locate (t : FileTree) (p : Path) : Except FileFault Place := do
  if p.isBlank then throw .notFound
  let l ← t.walk (Place.start p) p.names
  if p.ending = .dot then t.enter l
  return l

/-- The place of a directory in which files stand. -/
def folder (t : FileTree) (p : Path) : Except FileFault Place := do
  let l ← t.walk (Place.start p) p.names
  t.enter l
  return l

/-- The place of a path that names something, and what it holds. -/
def find (t : FileTree) (p : Path) : Except FileFault (Place × Entry) := do
  let l ← t.locate p
  if p.ending = .slash then t.enter l
  match t.lookup l with
  | none => throw .notFound
  | some e => return (l, e)

/-- The path names a file or directory. -/
def contains (t : FileTree) (p : Path) : Bool := (t.find p).isOk

/-- The path names a directory. -/
def isDirectory (t : FileTree) (p : Path) : Bool :=
  match t.find p with
  | .ok (_, .directory) => true
  | _ => false

/-- The path names a directory with nothing in it. -/
def isVacant (t : FileTree) (p : Path) : Bool :=
  match t.find p with
  | .ok (l, .directory) => (t.childNames l).isEmpty
  | _ => false

/-- The path cannot be followed because a name on the way is missing. -/
def lacksParent (t : FileTree) (p : Path) : Bool :=
  match t.locate p with
  | .error .notFound => true
  | _ => false

/-! ## Reading -/

/-- The content of a file. -/
def read (t : FileTree) (p : Path) : Except FileFault ByteArray := do
  match ← t.find p with
  | (_, .directory) => throw .isADirectory
  | (_, .file content) => return content

/-- The content of a file that is opened for reading in place. -/
def load (t : FileTree) (p : Path) : Except FileFault ByteArray := do
  match ← t.find p with
  | (_, .directory) => throw .noContent
  | (_, .file content) => return content

/-- The sorted names of the files and directories in a directory. -/
def list (t : FileTree) (p : Path) : Except FileFault (List String) := do
  let (l, _) ← t.find p
  t.enter l
  return (t.childNames l).mergeSort (fun a b => decide (a ≤ b))

/-! ## Changing -/

/-- Writes a file, new or in the place of an old one. -/
def write (t : FileTree) (p : Path) (content : ByteArray) : Except FileFault FileTree := do
  let l ← t.locate p
  if p.ending = .slash ∨ t.lookup l = some .directory then throw .isADirectory
  return t.put l (.file content)

/-- Changes the content of a file that is there. -/
def edit (t : FileTree) (p : Path) (f : ByteArray → ByteArray) : Except FileFault FileTree := do
  match ← t.find p with
  | (_, .directory) => throw .isADirectory
  | (l, .file content) => return t.put l (.file (f content))

/-- Makes a directory where there is nothing. -/
def makeDirectory (t : FileTree) (p : Path) : Except FileFault FileTree := do
  let l ← t.locate p
  if (t.lookup l).isSome then throw .alreadyExists
  return t.put l .directory

/-- Puts an entry into a directory under a name that starts with `stem`. A name that was given out
once is not given out again, even when its entry is gone. -/
def makeFresh (t : FileTree) (folder : Path) (stem : String) (e : Entry) :
    Except FileFault (Path × FileTree) := do
  let l ← t.folder folder
  let free (k : Nat) : Bool := (t.lookup (l ++ [stem ++ toString k])).isNone
  match (List.range' t.given (t.entries.size + 1)).find? free with
  | some k =>
    let name := stem ++ toString k
    return (folder.child name, { t.put (l ++ [name]) e with given := k + 1 })
  | none => throw .alreadyExists

/-- Removes a file. -/
def removeFile (t : FileTree) (p : Path) : Except FileFault FileTree := do
  let l ← t.locate p
  match t.lookup l with
  | none => throw .notFound
  | some .directory => throw .isADirectory
  | some (.file _) => if p.ending = .slash then throw .notADirectory else return t.drop l

/-- Removes everything in a directory. -/
def clear (t : FileTree) (p : Path) : Except FileFault FileTree := do
  let (l, _) ← t.find p
  t.enter l
  return { t with entries := t.entries.filter fun q _ => !(l.isPrefixOf q && q != l) }

/-- Removes an empty directory, which must be named by a name of its own. -/
def removeDirectory (t : FileTree) (p : Path) : Except FileFault FileTree := do
  let l ← t.locate p
  if p.ending = .dot then throw .dotName
  if p.endsUp then throw .notEmpty
  if p.names.isEmpty then throw .busy
  t.enter l
  if (t.childNames l).isEmpty then return t.drop l else throw .notEmpty

/-- Moves a file to a path where there is no directory. -/
def moveFile (t : FileTree) (source target : Path) : Except FileFault FileTree := do
  let (l, _) ← t.find source
  let content ← t.read source
  let k ← t.locate target
  if target.isProper = false then throw .busy
  if target.ending = .slash then throw .notADirectory
  if t.lookup k = some .directory then throw .isADirectory
  return (t.drop l).put k (.file content)

/-- Moves a directory with everything below it to a path that holds nothing or an empty
directory. -/
def moveDirectory (t : FileTree) (source target : Path) : Except FileFault FileTree := do
  let l ← t.folder source
  let k ← t.locate target
  if target.isProper = false then throw .busy
  match t.lookup k with
  | some (.file _) => throw .notADirectory
  | some .directory => if (t.childNames k).isEmpty = false then throw .notEmpty
  | none => pure ()
  let inside := t.entries.toList.filter fun e => l.isPrefixOf e.1
  let moved := inside.map fun e => (k ++ e.1.drop l.length, e.2)
  return { t with entries := (t.prune l).entries.insertMany moved }

end FileTree

end TripleStore
