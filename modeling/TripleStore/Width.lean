import TripleStore.Octets

/-!
# Little-endian integers of two, four and eight bytes

`digits w n` writes `n` as `w` bytes, least significant first; `readDigits` reads such a number back
at a position of a byte string, and `readUInt?` refuses a position whose bytes are not all there.
`Width.forMax` picks the narrowest of the three stored widths.
-/

namespace TripleStore

/-- Numbers below this one have 16 bits. -/
def limit16 : Nat := 0x10000

/-- Numbers below this one have 32 bits. -/
def limit32 : Nat := 0x100000000

/-- Numbers below this one have 64 bits. -/
def limit64 : Nat := 0x10000000000000000

/-- The `w` low bytes of `n`, least significant first. -/
def digits : Nat → Nat → List UInt8
  | 0, _ => []
  | w + 1, n => UInt8.ofNat n :: digits w (n / 256)

@[simp] theorem length_digits (w n : Nat) : (digits w n).length = w := by
  induction w generalizing n with
  | zero => rfl
  | succ w ih => simp [digits, ih]

/-- The byte at position `i`, zero past the end. -/
def byteAt (data : ByteArray) (i : Nat) : UInt8 :=
  if h : i < data.size then data[i] else 0

/-- The number whose `w` bytes start at position `i`, least significant first. -/
def readDigits (data : ByteArray) (i : Nat) : Nat → Nat
  | 0 => 0
  | w + 1 => (byteAt data i).toNat + 256 * readDigits data (i + 1) w

/-- Width of a stored unsigned integer. -/
inductive Width
  | two
  | four
  | eight
  deriving DecidableEq, Repr

namespace Width

/-- Number of bytes. -/
def bytes : Width → Nat
  | two => 2
  | four => 4
  | eight => 8

/-- The width that a stored width byte names. -/
def ofByte? (b : UInt8) : Option Width :=
  if b = 2 then some two else if b = 4 then some four else if b = 8 then some eight else none

/-- The byte that stores a width. -/
def toByte (w : Width) : UInt8 := UInt8.ofNat w.bytes

@[simp] theorem ofByte?_toByte (w : Width) : ofByte? w.toByte = some w := by
  cases w <;> rfl

/-- The narrowest width that holds every number up to `m`. -/
def forMax (m : Nat) : Width :=
  if m < limit16 then two else if m < limit32 then four else eight

end Width

/-- The integer of width `w` at position `i`, if all of its bytes are there. -/
def readUInt? (data : ByteArray) (i : Nat) (w : Width) : Option Nat :=
  if i + w.bytes ≤ data.size then some (readDigits data i w.bytes) else none

end TripleStore
