import TripleStore.Settings
import TripleStore.Sorter

/-!
# Private directories of builders

A builder keeps its runs in a private directory below the working directory of its settings. Opening
a workspace makes both; closing it removes the private one with all it holds. A step that consumes
its builder is run by `Workspace.consume`, which closes the workspace whatever the outcome.
-/

namespace TripleStore

/-- The private directory of a builder. -/
structure Workspace where
  path : Path
  deriving DecidableEq, Repr

namespace Workspace

/-- Removes the private directory; it must still be there. -/
def close (w : Workspace) : Disk Unit := Disk.removeAll w.path

/-- Makes a private directory. Fails, and leaves none, if the settings ask for compressed runs. -/
def create (settings : Settings) (stem : String) : Disk Workspace := do
  Disk.makeDirectories settings.workPath
  let p ← Disk.change (·.makeFresh settings.workPath stem .directory)
  let w : Workspace := ⟨p⟩
  Disk.undoing
    (do
      Disk.ofResult (require (settings.compressRuns = false) (.invalid .compressionUnavailable))
      return w)
    w.close

/-- Fails if the private directory is gone. -/
def check (w : Workspace) : Disk Unit := Disk.requireFolder w.path

/-- Runs a step of a builder that is not used on after a failure: the private directory is then
removed, if it is still there. -/
def guarding {α : Type} (w : Workspace) (body : Disk α) : Disk α := Disk.undoing body w.close

/-- Runs the last step of a builder and closes its workspace. -/
def consume {α : Type} (w : Workspace) (body : Disk α) : Disk α := do
  let a ← w.guarding body
  w.close
  return a

end Workspace

end TripleStore
