import TripleStore.Container.Assembly
import TripleStore.Dictionary
import TripleStore.Disk

/-!
# Writing dictionaries

A dictionary writer takes strings in strictly ascending order and numbers them from 1. Its file
holds the positions of the strings, in the narrowest width for the last of them, and the strings
themselves.
-/

namespace TripleStore

/-- The strings so far, joined; where each ends, after a leading 0; the last one; and the header
fields by which a file is marked. -/
structure DictionaryWriter where
  last : Option ByteArray
  positions : Array Nat
  strings : ByteArray
  flags : UInt16
  aux : UInt16

namespace DictionaryWriter

/-- A writer of no strings. -/
def create (flags aux : UInt16) : DictionaryWriter := ⟨none, #[0], ByteArray.empty, flags, aux⟩

/-- Number of strings. -/
def count (w : DictionaryWriter) : Nat := w.positions.size - 1

/-- The string comes strictly after all that were taken. -/
def accepts (w : DictionaryWriter) (string : ByteArray) : Bool :=
  match w.last with
  | some last => Octets.compare last string == .lt
  | none => true

/-- Takes the next string. Its id is the number of strings then. -/
def push (w : DictionaryWriter) (string : ByteArray) : Result DictionaryWriter :=
  if w.accepts string then
    .ok { w with
      last := some string
      positions := w.positions.push (w.strings.size + string.size)
      strings := w.strings ++ string }
  else .error (.invalid .stringsNotAscending)

/-- Takes strings one after another. -/
def pushAll (w : DictionaryWriter) (strings : List ByteArray) : Result DictionaryWriter :=
  strings.foldlM push w

/-- The content of the file. -/
def file (w : DictionaryWriter) : ByteArray :=
  let width := Width.forMax w.strings.size
  let assembly := Assembly.empty
    |>.addSection .offsets (fun s => w.positions.foldl (fun s p => s.putUInt p width) s)
    |>.addSection .strings (fun s => s.putBytes w.strings)
  assembly.file {
    magic := Header.dictionaryMagic
    version := Header.currentVersion
    flags := w.flags
    count := UInt64.ofNat w.count
    tocStart := 0
    tocLength := 0
    offsetWidth := width.toByte
    valueWidth := 0
    aux := w.aux }

/-- Writes the file and answers the number of strings. -/
def finish (w : DictionaryWriter) (target : Path) : Disk Nat := do
  Disk.replaceFile target (pure w.file)
  return w.count

end DictionaryWriter

/-- Writes the file of a dictionary of strings, which must ascend strictly, and answers their
number. -/
def Dictionary.writeFile (strings : List ByteArray) (flags aux : UInt16) (target : Path) :
    Disk Nat := do
  let w ← Disk.ofResult ((DictionaryWriter.create flags aux).pushAll strings)
  w.finish target

end TripleStore
