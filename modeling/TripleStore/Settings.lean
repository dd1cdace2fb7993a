import TripleStore.Path
import TripleStore.Term.Split

/-!
# Settings of the builders

Where builders keep their temporary files, how much they sort in memory, and which parts of terms
they share. `Settings.default` is what a text of settings changes field by field.
-/

namespace TripleStore

/-- How a store is built. -/
structure Settings where
  /-- The directory under which builders work; the system's temporary directory if there is none. -/
  workDir : Option String
  /-- About how many bytes a sorter holds before it writes a run. -/
  sortBufferBytes : Nat
  splitMode : SplitMode
  /-- Shared parts of fewer bytes stay in their terms. -/
  minSharedLength : UInt16
  /-- Shared parts of fewer distinct terms stay in their terms. -/
  minSharedReuse : Nat
  /-- Runs are to be compressed, which is not supported. -/
  compressRuns : Bool
  deriving DecidableEq, Repr

namespace Settings

/-- 64 MiB for sorting; both kinds of shared parts, from four bytes and one use on. -/
def default : Settings := ⟨none, 64 * 1024 * 1024, .both, 4, 1, false⟩

instance instInhabitedSettings : Inhabited Settings := ⟨default⟩

/-- The directory under which builders work. -/
def workPath (s : Settings) : Path :=
  match s.workDir with
  | some text => Path.ofText text
  | none => ⟨true, ["tmp"], .name⟩

/-- How terms are split. -/
def splitter (s : Settings) : Splitter := ⟨s.splitMode, s.minSharedLength⟩

end Settings

end TripleStore
