import TripleStore.Dictionary.Writer
import TripleStore.Workspace

/-!
# Building a dictionary from strings in any order

A dictionary builder takes strings in any order, repetitions included, and writes the dictionary of
the distinct ones.
-/

namespace TripleStore

/-- A build of a dictionary: its workspace and the strings so far. -/
structure DictionaryBuilder where
  workspace : Workspace
  strings : Sorter ByteArray

namespace DictionaryBuilder

/-- Starts a build. -/
def create (settings : Settings) : Disk DictionaryBuilder := do
  let w ← Workspace.create settings "dictionary-"
  return ⟨w, Sorter.create w.path "terms" settings.sortBufferBytes⟩

/-- Takes in a string. -/
def add (string : ByteArray) : Build DictionaryBuilder Unit :=
  Build.part (·.strings) (fun b s => { b with strings := s }) (Sorter.push string)

/-- Writes the dictionary of the distinct strings and answers their number. Consumes the build. -/
def write (b : DictionaryBuilder) (target : Destination) : Disk Nat :=
  b.workspace.consume do
    Disk.makeParents target.path
    b.workspace.check
    let strings ← b.strings.drain
    Dictionary.writeFile ((runLengths strings).map (·.1)) 0 0 target.path

/-- Drops the build. -/
def close (b : DictionaryBuilder) : Disk Unit := b.workspace.close

end DictionaryBuilder

end TripleStore
