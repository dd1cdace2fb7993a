import TripleStore.Disk

/-!
# Operations on a builder

A `Build` operation works on a builder and on the file tree, and may fail. What it did to either
before it failed stays done, so a builder can be used on after a failure. `Build.part` lets an
operation on a part of a builder work on the whole; `Disk.build` runs one that is not used on.
-/

namespace TripleStore

/-- An operation that changes a builder and the file tree and may fail. -/
abbrev Build (σ : Type) := ExceptT StoreError (StateT σ (StateM FileTree))

namespace Build

variable {σ τ α : Type}

/-- Runs an operation on a builder and a tree. -/
def apply (x : Build σ α) (s : σ) (t : FileTree) : Result α × σ × FileTree :=
  let ((r, s), t) := (x.run.run s).run t
  (r, s, t)

/-- Runs an operation on the file tree alone. -/
def disk (x : Disk α) : Build σ α :=
  ExceptT.mk fun s t =>
    let (r, t) := x.apply t
    ((r, s), t)

/-- Answers a result that depends on neither. -/
def ofResult (r : Result α) : Build σ α := ExceptT.mk (pure r)

/-- Lets an operation on a part work on the whole. -/
def part (get : σ → τ) (set : σ → τ → σ) (x : Build τ α) : Build σ α :=
  ExceptT.mk fun s t =>
    let (r, v, t) := x.apply (get s) t
    ((r, set s v), t)

end Build

/-- Runs an operation on a builder and answers the builder after it. -/
def Disk.build {σ : Type} (s : σ) (x : Build σ Unit) : Disk σ :=
  ExceptT.mk fun t =>
    match x.apply s t with
    | (.ok (), s, t) => (.ok s, t)
    | (.error e, _, t) => (.error e, t)

end TripleStore
