import TripleStore.Result

/-!
# Offset tables

An offset table is an array of positions of one width, and with it the width, if any, of the values
that the file keeps elsewhere. Every read says why it fails: an index past the table, a position
that does not fit in 64 bits, a position outside the file.
-/

namespace TripleStore

/-- An array of positions in a file, and the width of the values of that file. -/
structure OffsetTable where
  start : Nat
  count : Nat
  width : Width
  valueWidth : Option Width
  deriving DecidableEq, Repr

namespace OffsetTable

/-- Position number `i`. -/
def offset (t : OffsetTable) (data : ByteArray) (i : Nat) : Result Nat := do
  require (i < t.count) (.outOfRange .offsetIndex i t.count)
  require (t.start + i * t.width.bytes < limit64) (.corrupt .offsetPositionOverflow)
  orFail (readUInt? data (t.start + i * t.width.bytes) t.width) (.corrupt (.offsetOutside i))

/-- The value that starts at byte `position` of the file. -/
def value (t : OffsetTable) (data : ByteArray) (position : Nat) : Result Nat := do
  let w ← orFail t.valueWidth (.invalid .noValueWidth)
  require (position + w.bytes ≤ data.size) (.outOfRange .valueOffset position data.size)
  orFail (readUInt? data position w) (.corrupt .valueOutside)

end OffsetTable

end TripleStore
