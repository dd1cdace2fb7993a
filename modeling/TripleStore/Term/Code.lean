import TripleStore.Result
import TripleStore.Term.Split

/-!
# Inline codes

A stored entry of a composite dictionary either is a whole term or starts with an inline code: four
base-64 symbols for the id of the shared part, most significant first, and a mark for the edge where
that part sits, `.` for leading and `!` for trailing; the remaining part follows. `decodeCoded?`
reads an entry back, and a term that it would take for a coded one, `looksCoded`, cannot be stored.
-/

namespace TripleStore

namespace Code

/-- Ids below this number have a code. -/
def limit : Nat := 0x1000000

/-- Number of symbols. -/
def length : Nat := 4

/-- The base-64 symbol of a number below 64. -/
def symbol (n : Nat) : UInt8 :=
  if n < 26 then UInt8.ofNat (65 + n)
  else if n < 52 then UInt8.ofNat (97 + (n - 26))
  else if n < 62 then UInt8.ofNat (48 + (n - 52))
  else if n = 62 then 43 else 47

/-- The number of a base-64 symbol. -/
def symbolValue? (b : UInt8) : Option Nat :=
  if 65 ≤ b ∧ b ≤ 90 then some (b.toNat - 65)
  else if 97 ≤ b ∧ b ≤ 122 then some (b.toNat - 97 + 26)
  else if 48 ≤ b ∧ b ≤ 57 then some (b.toNat - 48 + 52)
  else if b = 43 then some 62
  else if b = 47 then some 63
  else none

theorem symbolValue?_symbol : ∀ n < 64, symbolValue? (symbol n) = some n := by decide

/-- The mark of an edge. -/
def mark : Edge → UInt8
  | .leading => 46
  | .trailing => 33

/-- The edge of a mark. -/
def edge? (b : UInt8) : Option Edge :=
  if b = 46 then some .leading else if b = 33 then some .trailing else none

@[simp] theorem edge?_mark (e : Edge) : edge? (mark e) = some e := by
  cases e <;> rfl

/-- The four symbols of an id below the limit. -/
def symbols (id : Nat) : List UInt8 :=
  [symbol (id / 64 / 64 / 64 % 64), symbol (id / 64 / 64 % 64), symbol (id / 64 % 64),
    symbol (id % 64)]

/-- The four symbols of an id. -/
def encode (id : Nat) : Result ByteArray := do
  require (id < limit) (.outOfRange .sharedId id limit)
  return (symbols id).toByteArray

/-- The symbols of an id and the mark of an edge; a term without an edge has no code. -/
def encodeAt (id : Nat) (edge : Option Edge) : Result ByteArray := do
  let edge ← orFail edge (.invalid .unsplitCode)
  require (id < limit) (.outOfRange .sharedId id limit)
  return (symbols id ++ [mark edge]).toByteArray

/-- The id whose four symbols start at position `i`. -/
def decode? (data : ByteArray) (i : Nat) : Option Nat :=
  if i + length ≤ data.size then do
    let a ← symbolValue? (byteAt data i)
    let b ← symbolValue? (byteAt data (i + 1))
    let c ← symbolValue? (byteAt data (i + 2))
    let d ← symbolValue? (byteAt data (i + 3))
    return ((a * 64 + b) * 64 + c) * 64 + d
  else none

/-- Shared id, edge and remaining part of a coded entry. -/
def decodeCoded? (entry : ByteArray) : Option (Nat × Edge × ByteArray) :=
  if length < entry.size then do
    let edge ← edge? (byteAt entry length)
    let id ← decode? entry 0
    return (id, edge, entry.extract (length + 1) entry.size)
  else none

/-- The entry starts like a coded one. -/
def looksCoded (entry : ByteArray) : Bool := (decodeCoded? entry).isSome

end Code

end TripleStore
