import TripleStore.Container.Header
import TripleStore.Container.OffsetTable
import TripleStore.Crc32

/-!
# Reading a container file

A file is a header (32 bytes), sections, a table of contents and a footer of 16 bytes: the checksum
of all bytes between header and footer, and an end marker. `Layout.parse` accepts a file whose
sections lie between the header and the table of contents without overlap; it reads no checksum,
`Layout.verify` recomputes them all.
-/

namespace TripleStore

namespace Footer

/-- Size of the footer in bytes. -/
def size : Nat := 16

/-- The bytes of "TSTORE_ENDMK", which end every file. -/
def marker : List UInt8 := [84, 83, 84, 79, 82, 69, 95, 69, 78, 68, 77, 75]

/-- The bytes of a footer. -/
def encode (bodyChecksum : UInt32) : List UInt8 := digits 4 bodyChecksum.toNat ++ marker

/-- The body checksum in the footer of a file, if the file ends with one. -/
def decode? (data : ByteArray) : Option UInt32 :=
  if data.size < size then none
  else if (octets (data.extract (data.size - 12) data.size)) = marker then
    some (UInt32.ofNat (readDigits data (data.size - size) 4))
  else none

end Footer

/-- The `n` entries of a table of contents from `start` on, if they end at or before `limit`. -/
def parseToc (data : ByteArray) (limit start n : Nat) : Option (List TocEntry) :=
  if start + n * TocEntry.size ≤ limit then TocEntry.decodeAll? data start n else none

/-- Header and table of contents of a file that was checked for bounds. -/
structure Layout where
  header : Header
  toc : List TocEntry
  deriving DecidableEq, Repr

namespace Layout

/-- Order of spans by position, then by length. -/
def spanLe (a b : Section) : Bool :=
  a.start < b.start || (a.start == b.start && a.length ≤ b.length)

/-- Each span ends before the next one starts. -/
def backToBack : List Section → Bool
  | a :: b :: rest => a.stop ≤ b.start && backToBack (b :: rest)
  | _ => true

/-- No two of the spans overlap, checked on neighbours after sorting. -/
def disjoint (spans : List Section) : Bool := backToBack (spans.mergeSort spanLe)

/-- Reads and checks header, footer and table of contents of a file with the given magic. -/
def parse (data : ByteArray) (magic : UInt32) : Result Layout := do
  let header ← orFail (Header.decode? data) (.invalid .shortHeader)
  require (header.magic = magic) (.invalid .wrongMagic)
  require (header.version = Header.currentVersion) (.invalid .unknownVersion)
  require (Header.size + Footer.size ≤ data.size ∧ (Footer.decode? data).isSome)
    (.corrupt .noFooterAtOpen)
  let bodyEnd := data.size - Footer.size
  let tocStart := header.tocStart.toNat
  require (Header.size ≤ tocStart ∧ tocStart ≤ bodyEnd) (.corrupt .tocOffset)
  let toc ← orFail (parseToc data bodyEnd tocStart header.tocLength.toNat) (.corrupt .tocUnreadable)
  toc.forM fun e =>
    require (Header.size ≤ e.span.start ∧ e.span.fits tocStart) (.corrupt (.sectionOutside e.kind))
  require (disjoint (toc.map (·.span))) (.corrupt .sectionsOverlap)
  return ⟨header, toc⟩

/-- The first section of a kind. -/
def find? (l : Layout) (kind : SectionKind) : Option Section :=
  (l.toc.find? (·.kind == kind)).map (·.span)

/-- The first section of a kind; a file without one cannot be used. -/
def find (l : Layout) (kind : SectionKind) : Result Section :=
  orFail (l.find? kind) (.invalid .missingSection)

/-- The width of the positions in the file. -/
def offsetWidth (l : Layout) : Result Width :=
  orFail (Width.ofByte? l.header.offsetWidth) (.corrupt .offsetWidth)

/-- The width of the values in the file, if it has values. -/
def valueWidth (l : Layout) : Result (Option Width) :=
  if l.header.valueWidth = 0 then .ok none
  else (orFail (Width.ofByte? l.header.valueWidth) (.corrupt .valueWidth)).map some

/-- The offset table of the file, which must hold exactly `count` positions. -/
def offsetTable (l : Layout) (count : Nat) : Result OffsetTable := do
  let span ← l.find .offsets
  let width ← l.offsetWidth
  let need := count * width.bytes
  require (need < limit64) (.corrupt .offsetTableOverflow)
  require (span.length = need) (.corrupt (.offsetTableSize span.length need))
  let valueWidth ← l.valueWidth
  return ⟨span.start, count, width, valueWidth⟩

/-- Recomputes the checksum of every section and of the body. -/
def verify (l : Layout) (data : ByteArray) : Result Unit := do
  l.toc.forM fun e =>
    require (Crc32.checksumOf data e.span.start e.span.stop = e.checksum)
      (.corrupt (.sectionChecksum e.kind))
  let stored ← orFail (Footer.decode? data) (.corrupt .noFooter)
  require (Crc32.checksumOf data Header.size (data.size - Footer.size) = stored)
    (.corrupt .bodyChecksum)

end Layout

end TripleStore
