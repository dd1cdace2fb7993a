import TripleStore.FileTree
import TripleStore.Result

/-!
# Operations on a file tree

A `Disk` operation runs on a file tree and either answers or fails; what it did to the tree before
it failed stays done. `undoing` cleans up after a failure.
`replaceFile` writes a file beside its destination and moves it there; `publish` moves a finished
directory onto a destination that is absent or empty, and never onto anything else.
-/

namespace TripleStore

/-- An operation that reads and changes a file tree and may fail. -/
abbrev Disk := ExceptT StoreError (StateM FileTree)

namespace Disk

/-- Runs an operation on a tree. -/
def apply {α : Type} (x : Disk α) (t : FileTree) : Result α × FileTree := x.run.run t

/-- Answers what a function finds in the tree. -/
def look {α : Type} (f : FileTree → Except FileFault α) : Disk α :=
  ExceptT.mk do
    let t ← get
    return (f t).mapError .io

/-- Changes the tree, or leaves it as it is and fails. -/
def change {α : Type} (f : FileTree → Except FileFault (α × FileTree)) : Disk α :=
  ExceptT.mk do
    match f (← get) with
    | .ok (a, t) => set t; return .ok a
    | .error fault => return .error (.io fault)

/-- Changes the tree, or leaves it as it is and fails. -/
def update (f : FileTree → Except FileFault FileTree) : Disk Unit :=
  change fun t => (f t).map (((), ·))

/-- Answers a result that does not depend on the tree. -/
def ofResult {α : Type} (r : Result α) : Disk α := ExceptT.mk (pure r)

/-- Runs `cleanup` and passes over its failure. -/
def attempt (cleanup : Disk Unit) : StateM FileTree Unit := do
  let _ ← cleanup.run

/-- Runs `body` and, if it fails, `cleanup`. -/
def undoing {α : Type} (body : Disk α) (cleanup : Disk Unit) : Disk α :=
  ExceptT.mk do
    let r ← body.run
    match r with
    | .ok _ => pure ()
    | .error _ => attempt cleanup
    return r

/-! ## Directories -/

/-- Opens a directory: fails unless files can stand in it. -/
def requireFolder (p : Path) : Disk Unit :=
  look fun t => (t.folder p).map fun _ => ()

/-- Makes a directory unless it is there. -/
def ensureDirectory (p : Path) : Disk Unit :=
  update fun t => if t.isDirectory p then .ok t else t.makeDirectory p

/-- Makes a directory and those that lead to it, as far as they are missing. -/
def makeDirectories (p : Path) : Disk Unit :=
  if _h : p.names = [] then pure ()
  else do
    if (← get).lacksParent p then makeDirectories p.parent
    ensureDirectory p
termination_by p.names.length
decreasing_by exact p.length_parent _h

/-- Makes the directories above a path. -/
def makeParents (p : Path) : Disk Unit := makeDirectories p.parent

/-- Removes a directory with everything below it. -/
def removeAll (p : Path) : Disk Unit := do
  update (·.clear p)
  update (·.removeDirectory p)

/-- Removes a file, or a directory with everything below it. -/
def remove (p : Path) : Disk Unit := do
  if (← get).isDirectory p then removeAll p else update (·.removeFile p)

/-! ## Files -/

/-- Copies a file. The copy is emptied before the source is read. -/
def copy (source target : Path) : Disk Unit := do
  if (← get).isDirectory source then throw (.io .notAFile)
  let _ ← look (·.read source)
  update (·.write target ByteArray.empty)
  let content ← look (·.read source)
  update (·.write target content)

/-- Writes a file beside `target`, filled by `content`, and moves it there. -/
def replaceFile (target : Path) (content : Disk ByteArray) : Disk Unit := do
  let p ← change (·.makeFresh target.parent ".file-" (.file ByteArray.empty))
  undoing (do
      let bytes ← content
      update (·.write p bytes)
      update (·.moveFile p target))
    (update (·.removeFile p))

/-! ## Publishing -/

/-- Moves the finished directory `source` to a destination that is absent or an empty directory. The
directory before it is moved, and the one that it was moved to afterwards, are opened to be
flushed. -/
def publish (source : Path) (target : Destination) : Disk Unit := do
  let t ← get
  if t.isVacant target.path then update (·.removeDirectory target.path)
  else if t.contains target.path then throw (.destinationExists target.text)
  requireFolder source
  update (·.moveDirectory source target.path)
  requireFolder target.path.parent

/-- Makes a directory beside the destination, lets `fill` put the finished files there, and
publishes it; after a failure the directory is gone. -/
def staged {α : Type} (target : Destination) (fill : Destination → Disk α) : Disk α := do
  makeParents target.path
  let p ← change (·.makeFresh target.path.parent ".staging-" .directory)
  undoing (do
      let a ← fill ⟨p, target.text⟩
      publish p target
      return a)
    (removeAll p)

end Disk

end TripleStore
