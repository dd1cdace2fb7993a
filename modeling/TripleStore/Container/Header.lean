import TripleStore.Result

/-!
# The header of a container file

A file starts with 32 bytes: magic (4), version (2), flags (2), count (8), position of the table of
contents (8), its number of entries (4), offset width (1), value width (1) and one auxiliary field
(2), all little-endian. `Header.decode?` reads back what `Header.encode` writes.
-/

namespace TripleStore

/-- The fields of a header as they are stored. -/
structure Header where
  /-- The four magic bytes, the first one lowest. -/
  magic : UInt32
  version : UInt16
  /-- Marks that depend on the kind of file. -/
  flags : UInt16
  /-- Number of strings or of rows. -/
  count : UInt64
  tocStart : UInt64
  tocLength : UInt32
  offsetWidth : UInt8
  /-- Zero if the file has no values of one width. -/
  valueWidth : UInt8
  aux : UInt16
  deriving DecidableEq, Repr

namespace Header

/-- Size of a header in bytes. -/
def size : Nat := 32

/-- The format version that is written and read. -/
def currentVersion : UInt16 := 1

/-- The magic of dictionaries, the bytes of "TDIC". -/
def dictionaryMagic : UInt32 := 0x43494454

/-- The magic of triple indices, the bytes of "TIDX". -/
def indexMagic : UInt32 := 0x58444954

/-- The bytes of a header. -/
def encode (h : Header) : List UInt8 :=
  digits 4 h.magic.toNat ++ digits 2 h.version.toNat ++ digits 2 h.flags.toNat ++
    digits 8 h.count.toNat ++ digits 8 h.tocStart.toNat ++ digits 4 h.tocLength.toNat ++
    digits 1 h.offsetWidth.toNat ++ digits 1 h.valueWidth.toNat ++ digits 2 h.aux.toNat

@[simp] theorem length_encode (h : Header) : h.encode.length = size := by
  simp [encode, size]

/-- The header at the front of a byte string, if it is long enough. -/
def decode? (data : ByteArray) : Option Header :=
  if data.size < size then none
  else some {
    magic := UInt32.ofNat (readDigits data 0 4)
    version := UInt16.ofNat (readDigits data 4 2)
    flags := UInt16.ofNat (readDigits data 6 2)
    count := UInt64.ofNat (readDigits data 8 8)
    tocStart := UInt64.ofNat (readDigits data 16 8)
    tocLength := UInt32.ofNat (readDigits data 24 4)
    offsetWidth := UInt8.ofNat (readDigits data 28 1)
    valueWidth := UInt8.ofNat (readDigits data 29 1)
    aux := UInt16.ofNat (readDigits data 30 2) }

end Header

end TripleStore
