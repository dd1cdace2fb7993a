import TripleStore.Build
import TripleStore.Sorter.Merge

/-!
# Sorting within a memory budget

A sorter buffers records and, whenever they reach its budget, writes them out as a sorted run: a
file in a folder of its owner. A run that cannot be written leaves its records in the buffer.
`Sorter.finish` answers all records in ascending order, duplicates kept: the sorted buffer if
nothing was written out, else the merge of all runs. `Sorter.drain` takes them all, and removes the
runs.
-/

namespace TripleStore

/-- A sorter: where its runs go, its budget, the buffered records (last one first), what they count
against the budget, the number of runs written and the number of records ever pushed. -/
structure Sorter (α : Type) where
  folder : Path
  name : String
  budget : Nat
  buffer : List α
  held : Nat
  runs : Nat
  total : Nat

namespace Sorter

variable {α : Type} [Ord α] [Record α]

/-- The order of records as a test. -/
def le (a b : α) : Bool := (compare a b).isLE

/-- Ascending order, duplicates kept. -/
def sorted (records : List α) : List α := records.mergeSort le

/-- A sorter that has seen nothing. A budget of zero counts as one. -/
def create (folder : Path) (name : String) (budget : Nat) : Sorter α :=
  ⟨folder, name, max budget 1, [], 0, 0, 0⟩

/-- A number in at least five digits. -/
def fiveDigits (n : Nat) : String :=
  let text := toString n
  String.ofList (List.replicate (5 - text.length) '0') ++ text

/-- The file of run number `i`. -/
def runPath (s : Sorter α) (i : Nat) : Path :=
  s.folder.child (s.name ++ "-" ++ fiveDigits i ++ ".run")

/-- The content of a run. -/
def encodeRun (records : List α) : ByteArray := (records.flatMap Record.encode).toByteArray

/-- Takes a record into the buffer. -/
def take (s : Sorter α) (record : α) : Sorter α :=
  { s with
    buffer := record :: s.buffer
    held := s.held + Record.footprint record
    total := s.total + 1 }

/-- The buffer has reached the budget. -/
def isFull (s : Sorter α) : Bool := s.budget ≤ s.held

/-- Writes the buffer out as a run. -/
def spill : Build (Sorter α) Unit := do
  let s ← get
  if s.buffer.isEmpty then return
  Build.disk (Disk.update (·.write (s.runPath s.runs) (encodeRun (sorted s.buffer.reverse))))
  modify fun s => { s with buffer := [], held := 0, runs := s.runs + 1 }

/-- Takes in a record, and writes a run once the budget is reached. -/
def push (record : α) : Build (Sorter α) Unit := do
  modify (·.take record)
  if (← get).isFull then spill

/-- Opens run number `i` and reads its first record. -/
def openRun (s : Sorter α) (i : Nat) : Disk (Option (Head α)) := do
  let content ← Disk.look (·.read (s.runPath i))
  Disk.ofResult (Head.read? i (octets content))

/-- All records in ascending order, and the files of the runs that they come from. -/
def finish (s : Sorter α) : Disk (Stream α × List Path) := do
  if s.runs = 0 then return (.memory (sorted s.buffer.reverse), [])
  let s ← Disk.build s spill
  let firsts ← (List.range s.runs).mapM s.openRun
  return (.merge (firsts.foldr Head.refill []), (List.range s.runs).map s.runPath)

/-- Removes the files of runs, those that are there. -/
def removeRuns (files : List Path) : StateM FileTree Unit :=
  files.forM fun p => Disk.attempt (Disk.update (·.removeFile p))

/-- All records in ascending order. The runs are gone afterwards. -/
def drain (s : Sorter α) : Disk (List α) := do
  let (records, files) ← s.finish
  removeRuns files
  Disk.ofResult records.collect

end Sorter

/-- Puts an item in front of neighbouring equal items taken together. -/
def addRun {α : Type} [DecidableEq α] (a : α) : List (α × Nat) → List (α × Nat)
  | [] => [(a, 1)]
  | (b, n) :: others => if a = b then (b, n + 1) :: others else (a, 1) :: (b, n) :: others

/-- Neighbouring equal items taken together, with their numbers. -/
def runLengths {α : Type} [DecidableEq α] (items : List α) : List (α × Nat) :=
  items.foldr addRun []

end TripleStore
