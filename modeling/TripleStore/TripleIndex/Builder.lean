import TripleStore.TripleIndex.Writer
import TripleStore.Workspace

/-!
# Building the three indices of a set of triples

An index builder takes triples in any order, duplicates included, sorts them in each of the three
role orders, and publishes the three files as one directory.
-/

namespace TripleStore

/-- A build of the indices: its workspace, the sort budget of each order, the sorter of each order,
and the number of triples that all three have taken in. -/
structure IndexBuilder where
  workspace : Workspace
  budget : Nat
  spo : Sorter Row
  pso : Sorter Row
  ops : Sorter Row
  count : Nat

namespace IndexBuilder

/-- Starts a build. The three orders share the sort budget of the settings. -/
def create (settings : Settings) : Disk IndexBuilder := do
  let w ← Workspace.create settings "triples-"
  let budget := max (settings.sortBufferBytes / 3) 1
  let sorter (o : RoleOrder) : Sorter Row := Sorter.create w.path o.fileName budget
  return ⟨w, budget, sorter .spo, sorter .pso, sorter .ops, 0⟩

/-- The sorter of an order. -/
def sorter (b : IndexBuilder) : RoleOrder → Sorter Row
  | .spo => b.spo
  | .pso => b.pso
  | .ops => b.ops

/-- Takes in a triple. -/
def add (t : Triple) : Build IndexBuilder Unit := do
  Build.part (·.spo) (fun b s => { b with spo := s }) (Sorter.push (t.toRow .spo))
  Build.part (·.pso) (fun b s => { b with pso := s }) (Sorter.push (t.toRow .pso))
  Build.part (·.ops) (fun b s => { b with ops := s }) (Sorter.push (t.toRow .ops))
  modify fun b => { b with count := b.count + 1 }

/-- Writes the index of one order. -/
def writeOrder (b : IndexBuilder) (folder : Path) (order : RoleOrder) : Disk Unit := do
  let w ← IndexWriter.create b.workspace.path order b.budget
  let rows ← (b.sorter order).drain
  let w ← Disk.build w (rows.forM IndexWriter.push)
  let _ ← w.finish (folder.child order.fileName)

/-- Writes the three indices and publishes them; answers the number of triples. Consumes the build.
-/
def write (b : IndexBuilder) (target : Destination) : Disk Nat :=
  b.workspace.consume do
    Disk.staged target fun folder => RoleOrder.all.forM (b.writeOrder folder.path)
    return b.count

/-- Drops the build. -/
def close (b : IndexBuilder) : Disk Unit := b.workspace.close

end IndexBuilder

end TripleStore
