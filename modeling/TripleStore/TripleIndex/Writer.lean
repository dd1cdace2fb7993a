import TripleStore.Container.Assembly
import TripleStore.Sorter
import TripleStore.TripleIndex

/-!
# Writing triple indices

An index writer takes the rows of one order, ascending, duplicates allowed. It notes each new key
and its first row as they pass, and sorts the rows a second time by key, value and sub key.
-/

namespace TripleStore

/-- What was noted of the rows so far: each new key, the first row of each, and the rows; the sorter
of the rows by value; and of the rows that were taken in full, the last one, their number and the
greatest id. A row of which the sorter could not write a run is noted, but not taken in full. -/
structure IndexWriter where
  order : RoleOrder
  keys : Array UInt64
  starts : Array Nat
  rows : Array Row
  byValue : Sorter Row
  last : Option Row
  count : Nat
  greatest : UInt64

namespace IndexWriter

/-- A writer of no rows, which sorts in the directory `folder`. -/
def create (folder : Path) (order : RoleOrder) (budget : Nat) : Disk IndexWriter := do
  Disk.requireFolder folder
  return ⟨order, #[], #[], #[], Sorter.create folder (order.fileName ++ "-by-value") budget,
    none, 0, 0⟩

/-- The row does not come before the last one. -/
def accepts (w : IndexWriter) (row : Row) : Bool :=
  match w.last with
  | some last => (compare last row).isLE
  | none => true

/-- The row has another key than the last one. -/
def startsKey (w : IndexWriter) (row : Row) : Bool :=
  match w.last with
  | some last => last.key != row.key
  | none => true

/-- Notes a row, and its key if it is new. -/
def note (w : IndexWriter) (row : Row) : IndexWriter :=
  let opens := w.startsKey row
  { w with
    keys := if opens then w.keys.push row.key else w.keys
    starts := if opens then w.starts.push w.count else w.starts
    rows := w.rows.push row }

/-- Counts a row that was taken in full. -/
def settle (w : IndexWriter) (row : Row) : IndexWriter :=
  { w with
    last := some row
    count := w.count + 1
    greatest := max w.greatest (max row.key (max row.subKey row.value)) }

/-- Takes the next row. -/
def push (row : Row) : Build IndexWriter Unit := do
  let accepted := (← get).accepts row
  Build.ofResult (require (accepted = true) (.invalid .rowsNotSorted))
  modify (·.note row)
  Build.part (·.byValue) (fun w s => { w with byValue := s })
    (Sorter.push ⟨row.key, row.value, row.subKey⟩)
  modify (·.settle row)

/-- The content of the file, given the rows by value as `(key, value, subKey)`. -/
def file (w : IndexWriter) (byValue : List Row) : ByteArray :=
  let idWidth := Width.forMax w.greatest.toNat
  let rowWidth := Width.forMax w.count
  let putId := fun (s : OpenSection) (id : UInt64) => s.putUInt id.toNat idWidth
  let putRow := fun (s : OpenSection) (r : Row) => putId (putId s r.subKey) r.value
  let assembly := Assembly.empty
    |>.addSection .keys (fun s => w.keys.foldl putId s)
    |>.addSection .offsets
      (fun s => (w.starts.push w.count).foldl (fun s p => s.putUInt p rowWidth) s)
    |>.addSection .rows (fun s => w.rows.foldl putRow s)
    |>.addSection .byValue (fun s => byValue.foldl putRow s)
  assembly.file {
    magic := Header.indexMagic
    version := Header.currentVersion
    flags := w.order.tag
    count := UInt64.ofNat w.count
    tocStart := 0
    tocLength := 0
    offsetWidth := rowWidth.toByte
    valueWidth := idWidth.toByte
    aux := 0 }

/-- Writes the file and answers the number of rows. -/
def finish (w : IndexWriter) (target : Path) : Disk Nat := do
  Disk.replaceFile target do
    let byValue ← w.byValue.drain
    Disk.ofResult (require (byValue.length = w.count)
      (.corrupt (.secondaryRowCount byValue.length w.count)))
    return w.file byValue
  return w.count

end IndexWriter

end TripleStore
