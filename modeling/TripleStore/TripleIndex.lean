import TripleStore.Container.Layout
import TripleStore.Triple

/-!
# Triple indices

An index file holds the rows `(key, subKey, value)` of one role order, sorted. Its sections are the
distinct keys, the first row of each key and the number of rows at the end, the pairs (sub key,
value) of all rows, and the same rows as pairs (value, sub key), sorted again within each key.
`scan` answers all rows; `pairs`, `values`, `subKeys` and `contains` find the rows of one key by
binary search, first among the keys, then among its rows.

Opening a file checks sizes only. Reads never rely on the rest; `validate` checks it.
-/

namespace TripleStore

/-- Two ids, as a row of an index without its key. -/
abbrev Pair := UInt64 × UInt64

/-- Lexicographic order of pairs. -/
def Pair.lt (a b : Pair) : Bool := a.1 < b.1 || (a.1 == b.1 && a.2 < b.2)

/-! ## Opening -/

/-- An opened index file. -/
structure TripleIndex where
  data : ByteArray
  layout : Layout
  order : RoleOrder
  table : OffsetTable
  width : Width
  keySection : Section
  rowSection : Section
  valueSection : Section

namespace TripleIndex

/-- Number of rows. -/
def count (x : TripleIndex) : Nat := x.layout.header.count.toNat

/-- Number of distinct keys. -/
def keyCount (x : TripleIndex) : Nat := x.keySection.length / x.width.bytes

/-- Opens the content of an index file. -/
def ofBytes (data : ByteArray) : Result TripleIndex := do
  let layout ← Layout.parse data Header.indexMagic
  let order ← orFail (RoleOrder.ofTag? layout.header.flags) (.corrupt .unknownRoleOrder)
  let width ← orFail (← layout.valueWidth) (.corrupt .noIdWidth)
  let keys ← layout.find .keys
  let rows ← layout.find .rows
  let byValue ← layout.find .byValue
  require (keys.length % width.bytes = 0) (.corrupt .raggedKeys)
  let keyCount := keys.length / width.bytes
  let count := layout.header.count.toNat
  let need := count * (2 * width.bytes)
  require (need < limit64) (.corrupt .rowCountOverflow)
  require (rows.length = need ∧ byValue.length = need)
    (.corrupt (.rowSectionSizes rows.length byValue.length need))
  require (keyCount = 0 ↔ count = 0) (.corrupt .keysWithoutRows)
  let table ← layout.offsetTable (keyCount + 1)
  return ⟨data, layout, order, table, width, keys, rows, byValue⟩

/-! ## Keys and rows by number -/

/-- Key number `i`. -/
def keyAt (x : TripleIndex) (i : Nat) : Result UInt64 :=
  (x.table.value x.data (x.keySection.start + i * x.width.bytes)).map UInt64.ofNat

/-- Row number `row` of one of the two row sections. -/
def pairAt (x : TripleIndex) (part : Section) (row : Nat) : Result Pair := do
  let position := part.start + row * (2 * x.width.bytes)
  let a ← x.table.value x.data position
  let b ← x.table.value x.data (position + x.width.bytes)
  return (UInt64.ofNat a, UInt64.ofNat b)

/-- First row of key number `i`, and the row after its last. -/
def keyRows (x : TripleIndex) (i : Nat) : Result (Nat × Nat) := do
  let start ← x.table.offset x.data i
  let stop ← x.table.offset x.data (i + 1)
  require (start ≤ stop ∧ stop ≤ x.count) (.corrupt (.keySpan i start stop x.count))
  return (start, stop)

/-! ## Rows of a key -/

/-- Looks for a key among the keys from number `lo` up to `hi`. -/
def findKeyBetween (x : TripleIndex) (key : UInt64) (lo hi : Nat) : Result (Option Nat) :=
  if lo < hi then
    let mid := lo + (hi - lo) / 2
    match x.keyAt mid with
    | .error e => .error e
    | .ok found =>
      match compare found key with
      | .lt => x.findKeyBetween key (mid + 1) hi
      | .gt => x.findKeyBetween key lo mid
      | .eq => .ok (some mid)
  else .ok none
termination_by hi - lo

/-- The number of a key. -/
def findKey (x : TripleIndex) (key : UInt64) : Result (Option Nat) :=
  x.findKeyBetween key 0 x.keyCount

/-- The first row from `lo` up to `hi` that is not below the point sought. -/
def lowerBound (x : TripleIndex) (part : Section) (below : Pair → Bool) (lo hi : Nat) :
    Result Nat :=
  if lo < hi then
    let mid := lo + (hi - lo) / 2
    match x.pairAt part mid with
    | .error e => .error e
    | .ok pair =>
      if below pair then x.lowerBound part below (mid + 1) hi else x.lowerBound part below lo mid
  else .ok lo
termination_by hi - lo

/-- The `n` pairs from row `row` on, up to the first that cannot be read. -/
def pairsFrom (x : TripleIndex) (part : Section) (row n : Nat) : Results Pair :=
  untilError ((List.range' row n).map (x.pairAt part))

/-- The pairs (sub key, value) of a key. -/
def pairs (x : TripleIndex) (key : UInt64) : Result (Results Pair) := do
  match ← x.findKey key with
  | none => return []
  | some i =>
    let (start, stop) ← x.keyRows i
    return x.pairsFrom x.rowSection start (stop - start)

/-- The pairs of a key whose first component is `lead`. -/
def ledBy (x : TripleIndex) (part : Section) (key lead : UInt64) : Result (Results Pair) := do
  match ← x.findKey key with
  | none => return []
  | some i =>
    let (start, stop) ← x.keyRows i
    let row ← x.lowerBound part (fun pair => pair.1 < lead) start stop
    return (x.pairsFrom part row (stop - row)).takeWhile fun
      | .ok pair => pair.1 == lead
      | .error _ => true

/-- The values of a key and a sub key. -/
def values (x : TripleIndex) (key subKey : UInt64) : Result (Results UInt64) :=
  (x.ledBy x.rowSection key subKey).map (·.map (·.map (·.2)))

/-- The sub keys of a key and a value. -/
def subKeys (x : TripleIndex) (key value : UInt64) : Result (Results UInt64) :=
  (x.ledBy x.valueSection key value).map (·.map (·.map (·.2)))

/-- The index has a row. -/
def contains (x : TripleIndex) (row : Row) : Result Bool := do
  match ← x.findKey row.key with
  | none => return false
  | some i =>
    let (start, stop) ← x.keyRows i
    let target := (row.subKey, row.value)
    let found ← x.lowerBound x.rowSection (fun pair => Pair.lt pair target) start stop
    if found < stop then
      return (← x.pairAt x.rowSection found) == target
    else return false

/-! ## All rows -/

/-- The distinct keys, in order. -/
def keys (x : TripleIndex) : Results UInt64 := (List.range x.keyCount).map x.keyAt

/-- A scan under way: the items so far, the next row, and whether the last item is an error. -/
structure Scan where
  items : Array (Result Row)
  row : Nat
  failed : Bool

/-- Ends a scan with an error. -/
def Scan.fail (s : Scan) (e : StoreError) : Scan := ⟨s.items.push (.error e), s.row, true⟩

/-- Takes the next `n` rows as rows of `key`. -/
def scanRows (x : TripleIndex) (key : UInt64) (s : Scan) : Nat → Scan
  | 0 => s
  | n + 1 =>
    match x.pairAt x.rowSection s.row with
    | .error e => s.fail e
    | .ok (subKey, value) =>
      x.scanRows key ⟨s.items.push (.ok ⟨key, subKey, value⟩), s.row + 1, s.failed⟩ n

/-- Takes the rows up to the last one of key number `i`. Only the end of its span counts. -/
def scanKey (x : TripleIndex) (s : Scan) (i : Nat) : Scan :=
  if s.failed = true ∨ x.count ≤ s.row then s
  else
    match x.keyAt i with
    | .error e => s.fail e
    | .ok key =>
      match x.keyRows i with
      | .error e => s.fail e
      | .ok (_, stop) => x.scanRows key s (stop - s.row)

/-- All rows, in order. An error is the last item. -/
def scan (x : TripleIndex) : Results Row :=
  let s := (List.range x.keyCount).foldl x.scanKey ⟨#[], 0, false⟩
  if s.failed = false ∧ s.row < x.count then (s.fail (.corrupt .rowsPastLastKey)).items.toList
  else s.items.toList

/-! ## Checks -/

/-- Checks that the `n` pairs from row `row` on continue `before` in order. -/
def checkRows (x : TripleIndex) (part : Section) (kind : SectionKind) (key : UInt64) (before : Pair)
    (row : Nat) : Nat → Result Unit
  | 0 => .ok ()
  | n + 1 => do
    let pair ← x.pairAt part row
    require (Pair.lt pair before = false) (.corrupt (.rowsUnsorted kind key row))
    x.checkRows part kind key pair (row + 1) n

/-- Checks that the rows from `start` up to `stop` of one of the two row sections are in order. -/
def checkPart (x : TripleIndex) (part : Section) (kind : SectionKind) (key : UInt64)
    (start stop : Nat) : Result Unit := do
  let first ← x.pairAt part start
  x.checkRows part kind key first (start + 1) (stop - (start + 1))

/-- Checks the `n` keys from number `i` on, which must ascend strictly from `before`, and their rows
in both sections. -/
def checkKeys (x : TripleIndex) (before : Option UInt64) (i : Nat) : Nat → Result Unit
  | 0 => .ok ()
  | n + 1 => do
    let key ← x.keyAt i
    require (before.all (· < key)) (.corrupt (.keysNotAscending i))
    let (start, stop) ← x.keyRows i
    require (start ≠ stop) (.corrupt (.emptyKey key))
    x.checkPart x.rowSection .rows key start stop
    x.checkPart x.valueSection .byValue key start stop
    x.checkKeys (some key) (i + 1) n

/-- Checks the order of the keys, the rows that each owns, and the order of these in both sections.
-/
def validate (x : TripleIndex) : Result Unit := do
  let first ← x.table.offset x.data 0
  require (first = 0) (.corrupt .firstKeyStart)
  let last ← x.table.offset x.data x.keyCount
  require (last = x.count) (.corrupt (.rowDirectoryEnd last x.count))
  x.checkKeys none 0 x.keyCount

/-- Recomputes all checksums. -/
def verify (x : TripleIndex) : Result Unit := x.layout.verify x.data

end TripleIndex

end TripleStore
