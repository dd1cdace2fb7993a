/-!
# Triples and role orders

A triple names a subject, a predicate and an object by their ids. An index keeps triples as rows
`(key, subKey, value)`; its role order says which role is which part of the row. `Row.toTriple`
undoes `Triple.toRow`, and rows are compared lexicographically.
-/

namespace TripleStore

/-- A statement as three term ids. -/
structure Triple where
  subject : UInt64
  predicate : UInt64
  object : UInt64
  deriving DecidableEq, Repr, Inhabited

/-- A triple as an index keeps it. -/
structure Row where
  key : UInt64
  subKey : UInt64
  value : UInt64
  deriving DecidableEq, Repr, Inhabited

/-- Lexicographic order by key, then sub key, then value. -/
def Row.compare (a b : Row) : Ordering :=
  (Ord.compare a.key b.key).then
    ((Ord.compare a.subKey b.subKey).then (Ord.compare a.value b.value))

instance instOrdRow : Ord Row := ⟨Row.compare⟩

/-- Which role is the key, which the sub key and which the value of a row. -/
inductive RoleOrder
  /-- Key subject, sub key predicate, value object. -/
  | spo
  /-- Key predicate, sub key subject, value object. -/
  | pso
  /-- Key object, sub key predicate, value subject. -/
  | ops
  deriving DecidableEq, Repr

namespace RoleOrder

/-- The three orders of a complete set of indices. -/
def all : List RoleOrder := [spo, pso, ops]

/-- The number that stores an order in a file. -/
def tag : RoleOrder → UInt16
  | spo => 1
  | pso => 2
  | ops => 3

/-- The order that a stored number names. -/
def ofTag? (t : UInt16) : Option RoleOrder :=
  if t = 1 then some spo else if t = 2 then some pso else if t = 3 then some ops else none

@[simp] theorem ofTag?_tag (o : RoleOrder) : ofTag? o.tag = some o := by
  cases o <;> rfl

/-- Name of the index file of an order. -/
def fileName : RoleOrder → String
  | spo => "spo"
  | pso => "pso"
  | ops => "ops"

/-- Name of an order in messages. -/
def label : RoleOrder → String
  | spo => "Spo"
  | pso => "Pso"
  | ops => "Ops"

end RoleOrder

/-- The row of a triple in an order. -/
def Triple.toRow (t : Triple) : RoleOrder → Row
  | .spo => ⟨t.subject, t.predicate, t.object⟩
  | .pso => ⟨t.predicate, t.subject, t.object⟩
  | .ops => ⟨t.object, t.predicate, t.subject⟩

/-- The triple of a row in an order. -/
def Row.toTriple (r : Row) : RoleOrder → Triple
  | .spo => ⟨r.key, r.subKey, r.value⟩
  | .pso => ⟨r.subKey, r.key, r.value⟩
  | .ops => ⟨r.value, r.subKey, r.key⟩

@[simp] theorem Triple.toTriple_toRow (t : Triple) (o : RoleOrder) :
    (t.toRow o).toTriple o = t := by
  cases o <;> rfl

@[simp] theorem Row.toRow_toTriple (r : Row) (o : RoleOrder) : (r.toTriple o).toRow o = r := by
  cases o <;> rfl

end TripleStore
