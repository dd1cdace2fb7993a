import TripleStore.Composite
import TripleStore.TripleIndex

/-!
# Stores

A store is a composite dictionary of terms and three indices of the same triples, one for each role
order. `Store.matching` answers a pattern of bound and unbound roles from the index that keeps the
bound ones in front.
-/

namespace TripleStore

/-- An opened store. -/
structure Store where
  terms : Composite
  spo : TripleIndex
  pso : TripleIndex
  ops : TripleIndex

/-- A triple with some roles left open. -/
structure Pattern where
  subject : Option UInt64
  predicate : Option UInt64
  object : Option UInt64
  deriving DecidableEq, Repr

namespace Store

/-- Name of the directory of the dictionary. -/
def termsFolder : String := "dict"

/-- Name of the directory of the indices. -/
def triplesFolder : String := "triples"

/-- Opens the index of an order in a directory. -/
def openIndex (folder : Path) (order : RoleOrder) : Disk TripleIndex := do
  let content ← Disk.look (·.load (folder.child order.fileName))
  let x ← Disk.ofResult (TripleIndex.ofBytes content)
  Disk.ofResult (require (x.order = order) (.corrupt (.wrongRoleOrder order x.order)))
  return x

/-- Opens the files of a store, dictionary first. -/
def openAt (folder : Path) : Disk Store := do
  let terms ← Composite.openAt (folder.child termsFolder)
  let spo ← openIndex (folder.child triplesFolder) .spo
  let pso ← openIndex (folder.child triplesFolder) .pso
  let ops ← openIndex (folder.child triplesFolder) .ops
  Disk.ofResult (require (spo.count = pso.count ∧ spo.count = ops.count)
    (.corrupt (.indexSizes spo.count pso.count ops.count)))
  return ⟨terms, spo, pso, ops⟩

/-- The index of an order. -/
def index (s : Store) : RoleOrder → TripleIndex
  | .spo => s.spo
  | .pso => s.pso
  | .ops => s.ops

/-- Number of triples. -/
def count (s : Store) : Nat := s.spo.count

/-- The id of a term, 0 if it is not there. -/
def findTerm (s : Store) (term : String) : Result Nat := s.terms.find term

/-- The term with an id. -/
def term (s : Store) (id : Nat) : Result String := s.terms.get id

/-- The triples that agree with a pattern in every bound role. -/
def matching (s : Store) (p : Pattern) : Result (Results Triple) :=
  let each {α : Type} (found : Result (Results α)) (f : α → Triple) : Result (Results Triple) :=
    found.map (·.map (·.map f))
  match p with
  | ⟨some subj, some pred, some obj⟩ =>
    let agrees : Result UInt64 → Bool
      | .ok value => value == obj
      | .error _ => true
    each ((s.spo.values subj pred).map (·.filter agrees)) fun _ => ⟨subj, pred, obj⟩
  | ⟨some subj, some pred, none⟩ => each (s.spo.values subj pred) fun o => ⟨subj, pred, o⟩
  | ⟨some subj, none, some obj⟩ => each (s.ops.subKeys obj subj) fun p => ⟨subj, p, obj⟩
  | ⟨some subj, none, none⟩ => each (s.spo.pairs subj) fun (p, o) => ⟨subj, p, o⟩
  | ⟨none, some pred, some obj⟩ => each (s.ops.values obj pred) fun s => ⟨s, pred, obj⟩
  | ⟨none, some pred, none⟩ => each (s.pso.pairs pred) fun (s, o) => ⟨s, pred, o⟩
  | ⟨none, none, some obj⟩ => each (s.ops.pairs obj) fun (p, s) => ⟨s, p, obj⟩
  | ⟨none, none, none⟩ => each (.ok s.spo.scan) (·.toTriple .spo)

/-- Checks every file. -/
def validate (s : Store) : Result Unit := do
  s.terms.validate
  RoleOrder.all.forM fun o => (s.index o).validate

/-- Recomputes the checksums of the dictionary. -/
def verifyTerms (s : Store) : Result Unit := s.terms.verify

end Store

end TripleStore
