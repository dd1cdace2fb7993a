import TripleStore.Composite.Builder
import TripleStore.Store
import TripleStore.TripleIndex.Builder

/-!
# Building a store

A store is built from a source of triples of terms that is read three times: twice for the
dictionary and once to map terms to ids. A source that changes between the readings is noticed. The
files are made beside the destination and published together at the end.
-/

namespace TripleStore

/-- A statement as three terms. -/
structure TermTriple where
  subject : String
  predicate : String
  object : String
  deriving DecidableEq, Repr

/-- The terms of triples, in the order in which they are visited. -/
def TermTriple.terms (t : TermTriple) : List String := [t.subject, t.predicate, t.object]

/-- What a source of triples yields when it is read for the first, second and third time. -/
structure TripleSource where
  first : List TermTriple
  second : List TermTriple
  third : List TermTriple
  deriving DecidableEq, Repr

/-- Numbers of a built store. -/
structure StoreStats where
  terms : CompositeStats
  triples : Nat
  deriving DecidableEq, Repr

namespace Store

/-- Writes the dictionary of the terms of a source. -/
def buildTerms (settings : Settings) (source : TripleSource) (target : Destination)
    (fingerprint : String → UInt64 := mixedFingerprint) : Disk CompositeStats :=
  Composite.build settings (source.first.flatMap (·.terms)) (source.second.flatMap (·.terms)) target
    fingerprint

/-- The id of a term of the source, which must be in the dictionary. -/
def resolve (terms : Composite) (term : String) : Result UInt64 := do
  let id ← terms.find term
  require (id ≠ 0) (.unseenTerm term)
  return UInt64.ofNat id

/-- The ids of a triple of terms. -/
def resolveTriple (terms : Composite) (t : TermTriple) : Result Triple := do
  let subject ← resolve terms t.subject
  let predicate ← resolve terms t.predicate
  let object ← resolve terms t.object
  return ⟨subject, predicate, object⟩

/-- Takes a triple of terms into a build of indices. -/
def addResolved (terms : Composite) (t : TermTriple) : Build IndexBuilder Unit := do
  IndexBuilder.add (← Build.ofResult (resolveTriple terms t))

/-- Writes the indices of triples over a dictionary. -/
def buildTriples (settings : Settings) (terms : Composite) (triples : List TermTriple)
    (target : Destination) : Disk Nat := do
  let b ← IndexBuilder.create settings
  let b ← b.workspace.guarding (Disk.build b (triples.forM (addResolved terms)))
  b.write target

/-- Builds the dictionary and then the indices of a store in a directory. -/
def buildParts (settings : Settings) (source : TripleSource) (folder : Destination)
    (fingerprint : String → UInt64 := mixedFingerprint) : Disk StoreStats := do
  let stats ← buildTerms settings source (folder.child termsFolder) fingerprint
  let terms ← Composite.openAt (folder.path.child termsFolder)
  let triples ← buildTriples settings terms source.third (folder.child triplesFolder)
  return ⟨stats, triples⟩

/-- Builds a store at a destination that is absent or an empty directory. -/
def build (settings : Settings) (source : TripleSource) (target : Destination)
    (fingerprint : String → UInt64 := mixedFingerprint) : Disk StoreStats :=
  Disk.staged target fun folder => buildParts settings source folder fingerprint

end Store

end TripleStore
