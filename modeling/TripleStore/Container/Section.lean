import TripleStore.Width

/-!
# Sections of a container file

A container file is a header, sections back to back, a table of contents and a footer. This module
holds the kinds of sections, their byte spans, and the 32-byte entry by which the table of contents
lists a section: kind (2 bytes), two zero bytes, offset (8), length (8), checksum (4), eight zero
bytes.
-/

namespace TripleStore

/-- What a section of a container file holds. -/
inductive SectionKind
  /-- Positions: of strings in a dictionary, of the first row of each key in an index. -/
  | offsets
  /-- The strings of a dictionary, one after another. -/
  | strings
  /-- The distinct keys of an index. -/
  | keys
  /-- The pairs (sub key, value) of an index, in order within each key. -/
  | rows
  /-- The pairs (value, sub key) of an index, in order within each key. -/
  | byValue
  deriving DecidableEq, Repr

namespace SectionKind

/-- All kinds, by tag. -/
def all : List SectionKind := [offsets, strings, keys, rows, byValue]

/-- The number that stores a kind in a file. -/
def tag : SectionKind → Nat
  | offsets => 1
  | strings => 2
  | keys => 3
  | rows => 4
  | byValue => 5

/-- The kind that a stored number names. -/
def ofTag? : Nat → Option SectionKind
  | 1 => some offsets
  | 2 => some strings
  | 3 => some keys
  | 4 => some rows
  | 5 => some byValue
  | _ => none

@[simp] theorem ofTag?_tag (k : SectionKind) : ofTag? k.tag = some k := by
  cases k <;> rfl

/-- Name of a kind in messages. -/
def label : SectionKind → String
  | offsets => "Offsets"
  | strings => "Strings"
  | keys => "Keys"
  | rows => "Rows"
  | byValue => "ByValue"

end SectionKind

/-- A span of bytes in a file. -/
structure Section where
  start : Nat
  length : Nat
  deriving DecidableEq, Repr, Inhabited

namespace Section

/-- Position after the last byte. -/
def stop (s : Section) : Nat := s.start + s.length

/-- The section ends at or before position `limit`. -/
def fits (s : Section) (limit : Nat) : Bool := s.stop ≤ limit

end Section

/-- A line of the table of contents. -/
structure TocEntry where
  kind : SectionKind
  span : Section
  checksum : UInt32
  deriving DecidableEq, Repr

namespace TocEntry

/-- Size of an entry in bytes. -/
def size : Nat := 32

/-- The bytes of an entry. -/
def encode (e : TocEntry) : List UInt8 :=
  digits 2 e.kind.tag ++ digits 2 0 ++ digits 8 e.span.start ++ digits 8 e.span.length ++
    digits 4 e.checksum.toNat ++ digits 8 0

@[simp] theorem length_encode (e : TocEntry) : e.encode.length = size := by
  simp [encode, size]

/-- The entry at position `i`, if its kind is known. -/
def decode? (data : ByteArray) (i : Nat) : Option TocEntry := do
  let kind ← SectionKind.ofTag? (readDigits data i 2)
  return ⟨kind, ⟨readDigits data (i + 4) 8, readDigits data (i + 12) 8⟩,
    UInt32.ofNat (readDigits data (i + 20) 4)⟩

/-- `n` entries one after another from position `i` on. -/
def decodeAll? (data : ByteArray) (i : Nat) : Nat → Option (List TocEntry)
  | 0 => some []
  | n + 1 => do
    let e ← decode? data i
    let rest ← decodeAll? data (i + size) n
    return e :: rest

end TocEntry

end TripleStore
