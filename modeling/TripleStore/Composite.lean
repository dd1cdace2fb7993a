import TripleStore.Dictionary
import TripleStore.Disk
import TripleStore.Term.Code

/-!
# Composite dictionaries

A composite dictionary resolves terms through two dictionaries: one of shared parts, and one of
entries, each of which is a whole term or an inline code followed by the remaining part of a term.
The header of the entries file records how terms were split, so that a look-up splits a term as the
build did. What `find` answers, `get` reads back, whatever the two files hold.
-/

namespace TripleStore

/-- An opened composite dictionary. -/
structure Composite where
  entries : Dictionary
  shared : Dictionary
  splitter : Splitter

namespace Composite

/-- Set in the header flags of every file of entries. -/
def flag : UInt16 := 0x8000

/-- Name of the file of shared parts. -/
def sharedFile : String := "shared"

/-- Name of the file of entries. -/
def entriesFile : String := "strings"

/-- The header flags of a file of entries. -/
def flagsOf (mode : SplitMode) : UInt16 := flag ||| UInt16.ofNat mode.tag

/-- Takes a dictionary of entries and one of shared parts together. -/
def ofDictionaries (entries shared : Dictionary) : Result Composite := do
  let flags := entries.layout.header.flags
  require (flags &&& flag ≠ 0) (.invalid .notComposite)
  let tag := flags.toNat % 256
  let mode ← orFail (SplitMode.ofTag? tag) (.corrupt (.unknownSplitMode tag))
  return ⟨entries, shared, ⟨mode, entries.layout.header.aux⟩⟩

/-- Opens a dictionary file. -/
def openDictionary (p : Path) : Disk Dictionary := do
  let content ← Disk.look (·.load p)
  Disk.ofResult (Dictionary.ofBytes content)

/-- Opens the two files in a directory, shared parts first. -/
def openAt (folder : Path) : Disk Composite := do
  let shared ← openDictionary (folder.child sharedFile)
  let entries ← openDictionary (folder.child entriesFile)
  Disk.ofResult (ofDictionaries entries shared)

/-- Number of terms. -/
def count (c : Composite) : Nat := c.entries.count

/-- The id of a term that is stored whole. No such term starts like a coded entry. -/
def findWhole (c : Composite) (key : Key) : Result Nat :=
  if Code.looksCoded (key.bytes.extract 0 (Code.length + 1)) then .ok 0 else c.entries.find key

/-- The parts of a split term as a key. -/
def wholeKey : Split → Key
  | .whole term => .whole term.toUTF8
  | .parted .leading shared rest => .parts shared.toUTF8 rest.toUTF8
  | .parted .trailing shared rest => .parts rest.toUTF8 shared.toUTF8

/-- The id of a split term, 0 if it is not there. A term whose shared part has no code is stored
whole. -/
def findSplit (c : Composite) (s : Split) : Result Nat :=
  match s with
  | .whole term => c.findWhole (.whole term.toUTF8)
  | .parted edge shared rest => do
    let id ← c.shared.find (.whole shared.toUTF8)
    if id = 0 ∨ Code.limit ≤ id then
      c.findWhole (wholeKey (.parted edge shared rest))
    else
      let code ← Code.encodeAt id (some edge)
      c.entries.find (.parts code rest.toUTF8)

/-- The id of a term, 0 if it is not there. -/
def find (c : Composite) (term : String) : Result Nat := c.findSplit (c.splitter.split term)

/-- The shared part with an id. An id that the shared dictionary does not have is damage of term
`id`. -/
def getShared (c : Composite) (id shared : Nat) : Result ByteArray :=
  match c.shared.get shared with
  | .error (.outOfRange ..) => .error (.corrupt (.danglingShared id shared))
  | r => r

/-- The bytes of the term with an id. -/
def getBytes (c : Composite) (id : Nat) : Result ByteArray := do
  let entry ← c.entries.get id
  match Code.decodeCoded? entry with
  | none => return entry
  | some (sharedId, edge, rest) =>
    let shared ← c.getShared id sharedId
    match edge with
    | .leading => return shared ++ rest
    | .trailing => return rest ++ shared

/-- The term with an id. -/
def get (c : Composite) (id : Nat) : Result String := do
  let bytes ← c.getBytes id
  orFail (String.fromUTF8? bytes) (.corrupt (.termText id))

/-- Checks the positions in both dictionaries. -/
def validate (c : Composite) : Result Unit := do
  c.shared.validate
  c.entries.validate

/-- Recomputes the checksums of both dictionaries. -/
def verify (c : Composite) : Result Unit := do
  c.shared.verify
  c.entries.verify

end Composite

end TripleStore
