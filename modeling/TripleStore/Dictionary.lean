import TripleStore.Container.Layout

/-!
# Sorted dictionaries

A dictionary file holds strings in ascending order; the id of a string is its place, counted from 1.
`Dictionary.get` reads a string by id, `Dictionary.find` looks one up by binary search, given whole
or in two parts, and answers 0 for a string that is not there. Neither relies on the file: a range
that leaves the string section is reported, whoever wrote it.
-/

namespace TripleStore

/-- A byte string to look up, whole or as two parts, one after the other. -/
inductive Key
  | whole (bytes : ByteArray)
  | parts (front back : ByteArray)
  deriving DecidableEq

namespace Key

/-- The byte string that is looked up. -/
def bytes : Key → ByteArray
  | whole b => b
  | parts a b => a ++ b

/-- Number of bytes. -/
def size : Key → Nat
  | whole b => b.size
  | parts a b => a.size + b.size

/-- The order of a stored string relative to the key. Two parts are compared one after the other. -/
def compareStored (stored : ByteArray) : Key → Ordering
  | whole b => Octets.compare stored b
  | parts a b =>
    match Octets.compare (stored.extract 0 a.size) a with
    | .eq => Octets.compare (stored.extract a.size stored.size) b
    | .lt => .lt
    | .gt => .gt

end Key

/-- An opened dictionary file. -/
structure Dictionary where
  data : ByteArray
  layout : Layout
  offsets : OffsetTable
  strings : Section

namespace Dictionary

/-- Opens the content of a dictionary file. -/
def ofBytes (data : ByteArray) : Result Dictionary := do
  let layout ← Layout.parse data Header.dictionaryMagic
  let count := layout.header.count.toNat
  require (count + 1 < limit64) (.corrupt .stringCountOverflow)
  let offsets ← layout.offsetTable (count + 1)
  let strings ← layout.find .strings
  return ⟨data, layout, offsets, strings⟩

/-- Number of strings. -/
def count (d : Dictionary) : Nat := d.layout.header.count.toNat

/-- First and last position of string number `i`, counted from 0, in the string section. -/
def span (d : Dictionary) (i : Nat) : Result (Nat × Nat) := do
  let start ← d.offsets.offset d.data i
  let stop ← d.offsets.offset d.data (i + 1)
  require (start ≤ stop ∧ stop ≤ d.strings.length)
    (.corrupt (.stringSpan (i + 1) start stop d.strings.length))
  return (start, stop)

/-- String number `i`, counted from 0. -/
def string (d : Dictionary) (i : Nat) : Result ByteArray := do
  let (start, stop) ← d.span i
  return d.data.extract (d.strings.start + start) (d.strings.start + stop)

/-- The string with an id. -/
def get (d : Dictionary) (id : Nat) : Result ByteArray := do
  require (1 ≤ id ∧ id ≤ d.count) (.outOfRange .termId id (d.count + 1))
  d.string (id - 1)

/-- The string with an id, as a text. -/
def getText (d : Dictionary) (id : Nat) : Result String := do
  let bytes ← d.get id
  orFail (String.fromUTF8? bytes) (.corrupt (.stringText id))

/-- Looks for a key among the strings from number `lo` up to `hi`, which halves at every step. -/
def findBetween (d : Dictionary) (key : Key) (lo hi : Nat) : Result Nat :=
  if lo < hi then
    let mid := lo + (hi - lo) / 2
    match d.string mid with
    | .error e => .error e
    | .ok stored =>
      match key.compareStored stored with
      | .lt => d.findBetween key (mid + 1) hi
      | .gt => d.findBetween key lo mid
      | .eq => .ok (mid + 1)
  else .ok 0
termination_by hi - lo

/-- The id of a key, 0 if it is not there. -/
def find (d : Dictionary) (key : Key) : Result Nat := d.findBetween key 0 d.count

/-- All ids with their strings, in order. -/
def items (d : Dictionary) : Results (Nat × ByteArray) :=
  (List.range d.count).map fun i => (d.get (i + 1)).map ((i + 1), ·)

/-- Checks that offset number `i` and the `n` after it do not decrease; answers the last one. -/
def checkOffsets (d : Dictionary) (before i : Nat) : Nat → Result Nat
  | 0 => .ok before
  | n + 1 => do
    let offset ← d.offsets.offset d.data i
    require (before ≤ offset) (.corrupt (.stringOffsetsDecrease i before offset))
    d.checkOffsets offset (i + 1) n

/-- Checks the positions of all strings without reading the strings. -/
def validate (d : Dictionary) : Result Unit := do
  let first ← d.offsets.offset d.data 0
  require (first = 0) (.corrupt (.firstStringOffset first))
  let last ← d.checkOffsets first 1 d.count
  require (last = d.strings.length) (.corrupt (.lastStringOffset last d.strings.length))

/-- Recomputes all checksums. -/
def verify (d : Dictionary) : Result Unit := d.layout.verify d.data

end Dictionary

end TripleStore
