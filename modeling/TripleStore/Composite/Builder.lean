import Std.Data.TreeSet.Basic
import TripleStore.Composite
import TripleStore.Dictionary.Writer
import TripleStore.Workspace

/-!
# Building composite dictionaries

A build goes over the same terms twice. The first pass, a `VocabularyBuilder`, collects the shared
parts of the distinct terms; `freeze` keeps those that enough terms share in a dictionary file in
the private directory. The second pass, a `CompositeBuilder`, turns each term into its entry over
this vocabulary; `write` publishes the entries and a copy of the file. The second pass takes only
terms that the first one saw, and as many of them.

A build knows a term again by a fingerprint of 64 bits, so it relies on the terms that it is given
having different ones. Which fingerprint it takes is left to the caller.
-/

namespace TripleStore

/-- A fingerprint that mixes in the bytes of a term one after another. -/
def mixedFingerprint (term : String) : UInt64 :=
  (octets term.toUTF8).foldl (fun h b => (h ^^^ b.toUInt64) * 0x100000001b3) 0xcbf29ce484222325

/-- The first pass: the candidates for sharing, one for each distinct term that is split, the
fingerprints of the terms seen, and the number of visits. -/
structure VocabularyBuilder where
  settings : Settings
  fingerprint : String → UInt64
  workspace : Workspace
  candidates : Sorter ByteArray
  seen : Std.TreeSet UInt64
  visits : Nat

/-- The second pass: the frozen vocabulary, opened; the entries so far; the fingerprints of the
terms that the first pass saw; and the number of visits, expected and made. -/
structure CompositeBuilder where
  splitter : Splitter
  fingerprint : String → UInt64
  workspace : Workspace
  shared : Dictionary
  entries : Sorter ByteArray
  seen : Std.TreeSet UInt64
  expected : Nat
  visits : Nat

/-- Numbers of a written composite dictionary. -/
structure CompositeStats where
  /-- Distinct terms. -/
  strings : Nat
  /-- Shared parts. -/
  shared : Nat
  /-- Entries coded with their shared part first. -/
  leading : Nat
  /-- Entries coded with their shared part last. -/
  trailing : Nat
  /-- Entries that are whole terms. -/
  whole : Nat
  deriving DecidableEq, Repr

/-- The file in which a build keeps its frozen vocabulary. -/
def Workspace.sharedPath (w : Workspace) : Path := w.path.child Composite.sharedFile

namespace VocabularyBuilder

/-- Starts a build. -/
def create (settings : Settings) (fingerprint : String → UInt64 := mixedFingerprint) :
    Disk VocabularyBuilder := do
  let w ← Workspace.create settings "composite-"
  let candidates := Sorter.create w.path "candidates" settings.sortBufferBytes
  return ⟨settings, fingerprint, w, candidates, ∅, 0⟩

/-- Counts a visit of a term. -/
def note (b : VocabularyBuilder) (term : String) : VocabularyBuilder :=
  { b with seen := b.seen.insert (b.fingerprint term), visits := b.visits + 1 }

/-- Takes in a candidate for sharing. -/
def propose (shared : String) : Build VocabularyBuilder Unit :=
  Build.part (·.candidates) (fun b s => { b with candidates := s }) (Sorter.push shared.toUTF8)

/-- Visits a term. Visits of the same term again do not count as uses of its shared part. -/
def visit (term : String) : Build VocabularyBuilder Unit := do
  Build.ofResult (require (Code.looksCoded term.toUTF8 = false) (.invalid .codedTerm))
  let b ← get
  let known := b.seen.contains (b.fingerprint term)
  let splitter := b.settings.splitter
  modify (·.note term)
  if known then return
  match splitter.split term with
  | .whole _ => return
  | .parted _ shared _ => propose shared

/-- The shared parts that enough terms use, out of all candidates in order. -/
def keep (minReuse : Nat) (candidates : List ByteArray) : List ByteArray :=
  (runLengths candidates).filterMap fun (shared, uses) =>
    if minReuse ≤ uses then some shared else none

/-- Freezes the vocabulary and starts the second pass. Consumes the first pass. -/
def freeze (b : VocabularyBuilder) : Disk CompositeBuilder :=
  b.workspace.guarding do
    b.workspace.check
    let candidates ← b.candidates.drain
    let kept := keep b.settings.minSharedReuse candidates
    let _ ← Dictionary.writeFile kept 0 0 b.workspace.sharedPath
    let shared ← Composite.openDictionary b.workspace.sharedPath
    return {
      splitter := b.settings.splitter
      fingerprint := b.fingerprint
      workspace := b.workspace
      shared := shared
      entries := Sorter.create b.workspace.path "strings" b.settings.sortBufferBytes
      seen := b.seen
      expected := b.visits
      visits := 0 }

/-- Drops the build. -/
def close (b : VocabularyBuilder) : Disk Unit := b.workspace.close

end VocabularyBuilder

namespace CompositeBuilder

/-- The entry of a split term: a code and the remaining part if the vocabulary has the shared part
under an id that can be coded, else the whole term. -/
def entryOf (shared : Dictionary) (s : Split) : Result ByteArray :=
  match s with
  | .whole term => .ok term.toUTF8
  | .parted edge part rest => do
    let id ← shared.find (.whole part.toUTF8)
    if id = 0 ∨ Code.limit ≤ id then return (Composite.wholeKey s).bytes
    let code ← Code.encodeAt id (some edge)
    return code ++ rest.toUTF8

/-- Takes in an entry. -/
def stage (entry : ByteArray) : Build CompositeBuilder Unit :=
  Build.part (·.entries) (fun b s => { b with entries := s }) (Sorter.push entry)

/-- Visits a term, which the first pass must have seen. -/
def visit (term : String) : Build CompositeBuilder Unit := do
  let b ← get
  Build.ofResult (require (b.seen.contains (b.fingerprint term) = true) (.unseenTerm term))
  let entry := entryOf b.shared (b.splitter.split term)
  modify fun b => { b with visits := b.visits + 1 }
  stage (← Build.ofResult entry)

/-- Counts the entries of each shape. -/
def count (stats : CompositeStats) (entry : ByteArray) : CompositeStats :=
  match Code.decodeCoded? entry with
  | some (_, .leading, _) =>
    { stats with leading := stats.leading + 1, strings := stats.strings + 1 }
  | some (_, .trailing, _) =>
    { stats with trailing := stats.trailing + 1, strings := stats.strings + 1 }
  | none => { stats with whole := stats.whole + 1, strings := stats.strings + 1 }

/-- Writes the files of both dictionaries into a directory; answers their numbers. -/
def writeFiles (b : CompositeBuilder) (folder : Path) : Disk CompositeStats := do
  b.workspace.check
  let entries := (runLengths (← b.entries.drain)).map (·.1)
  let _ ← Dictionary.writeFile entries (Composite.flagsOf b.splitter.mode) b.splitter.minShared
    (folder.child Composite.entriesFile)
  Disk.copy b.workspace.sharedPath (folder.child Composite.sharedFile)
  return entries.foldl count ⟨0, b.shared.count, 0, 0, 0⟩

/-- Publishes both dictionaries; answers their numbers. Consumes the build. -/
def write (b : CompositeBuilder) (target : Destination) : Disk CompositeStats :=
  b.workspace.consume do
    Disk.ofResult (require (b.visits = b.expected) (.invalid .visitCount))
    Disk.staged target fun folder => b.writeFiles folder.path

/-- Drops the build. -/
def close (b : CompositeBuilder) : Disk Unit := b.workspace.close

end CompositeBuilder

namespace Composite

/-- A whole first pass, up to the frozen vocabulary. -/
def firstPass (settings : Settings) (fingerprint : String → UInt64) (terms : List String) :
    Disk CompositeBuilder := do
  let b ← VocabularyBuilder.create settings fingerprint
  let b ← b.workspace.guarding (Disk.build b (terms.forM VocabularyBuilder.visit))
  b.freeze

/-- Builds a composite dictionary from what the two passes visit. -/
def build (settings : Settings) (first second : List String) (target : Destination)
    (fingerprint : String → UInt64 := mixedFingerprint) : Disk CompositeStats := do
  let b ← firstPass settings fingerprint first
  let b ← b.workspace.guarding (Disk.build b (second.forM CompositeBuilder.visit))
  b.write target

end Composite

end TripleStore
