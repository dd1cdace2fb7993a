import TripleStore.Container.Layout

/-!
# Writing a container file

A file is assembled front to back. `Assembly.addSection` opens a section, hands it to a writer that
puts bytes and integers into it, and closes it: both checksums advance with every byte.
`Assembly.file` adds the table of contents, the footer and the header, whose table position and
length it fills in.
-/

namespace TripleStore

/-- A file whose sections so far are closed: the bytes after the header, their checksum register,
and the table of contents, last section first. -/
structure Assembly where
  body : ByteArray
  register : UInt32
  toc : List TocEntry

/-- An assembly with one section still open: where it starts and its own checksum register. -/
structure OpenSection where
  body : ByteArray
  register : UInt32
  start : Nat
  sectionRegister : UInt32

namespace OpenSection

/-- Puts one byte. -/
def putByte (s : OpenSection) (b : UInt8) : OpenSection :=
  { s with
    body := s.body.push b
    register := Crc32.advance s.register b
    sectionRegister := Crc32.advance s.sectionRegister b }

/-- Puts a list of bytes. -/
def putList (s : OpenSection) (bytes : List UInt8) : OpenSection := bytes.foldl putByte s

/-- Puts a byte string. -/
def putBytes (s : OpenSection) (bytes : ByteArray) : OpenSection :=
  { s with
    body := s.body ++ bytes
    register := Crc32.advanceAll s.register bytes
    sectionRegister := Crc32.advanceAll s.sectionRegister bytes }

/-- Puts a number in the given width. -/
def putUInt (s : OpenSection) (n : Nat) (w : Width) : OpenSection := s.putList (digits w.bytes n)

/-- Copies the blocks that a reader answers, until one is empty or there are no more. -/
def copyFrom (s : OpenSection) : List ByteArray → OpenSection
  | [] => s
  | block :: blocks => if block.size = 0 then s else (s.putBytes block).copyFrom blocks

end OpenSection

namespace Assembly

/-- Nothing but room for the header. -/
def empty : Assembly := ⟨ByteArray.empty, Crc32.initial, []⟩

/-- Position of the next byte in the file. -/
def position (a : Assembly) : Nat := Header.size + a.body.size

/-- Opens a section, fills it and closes it. -/
def addSection (a : Assembly) (kind : SectionKind) (fill : OpenSection → OpenSection) : Assembly :=
  let start := a.position
  let s := fill ⟨a.body, a.register, start, Crc32.initial⟩
  let length := Header.size + s.body.size - start
  ⟨s.body, s.register, ⟨kind, ⟨start, length⟩, Crc32.finish s.sectionRegister⟩ :: a.toc⟩

/-- The finished file. The header's table position and length are those of this assembly. -/
def file (a : Assembly) (header : Header) : ByteArray :=
  let toc := (a.toc.reverse.flatMap TocEntry.encode).toByteArray
  let header := { header with
    tocStart := UInt64.ofNat a.position
    tocLength := UInt32.ofNat a.toc.length }
  let checksum := Crc32.finish (Crc32.advanceAll a.register toc)
  header.encode.toByteArray ++ a.body ++ toc ++ (Footer.encode checksum).toByteArray

end Assembly

end TripleStore
