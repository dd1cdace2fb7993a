import TripleStore.Octets

/-!
# The IEEE CRC-32 checksum

The checksum is a 32-bit register that each byte advances. `shift` is the one-bit step of the
reflected polynomial; `advance` takes eight of them at once through a table of residues. A checksum
can be taken in pieces: `checksum` of a byte string is `finish` of the register after its bytes.
-/

namespace TripleStore.Crc32

/-- The reflected generator polynomial. -/
def polynomial : UInt32 := 0xEDB88320

/-- Shifts one bit out of the register and, if it was set, adds the polynomial. -/
def shift (r : UInt32) : UInt32 :=
  if r &&& 1 = 0 then r >>> 1 else (r >>> 1) ^^^ polynomial

/-- What eight shifts make of one byte. -/
def residue (b : UInt8) : UInt32 :=
  shift (shift (shift (shift (shift (shift (shift (shift b.toUInt32)))))))

/-- The residues of all bytes. -/
def residues : Array UInt32 := Array.ofFn fun i : Fin 256 => residue (UInt8.ofNat i)

theorem size_residues : residues.size = 256 := by simp [residues]

/-- The register after one more byte. -/
def advance (r : UInt32) (b : UInt8) : UInt32 :=
  let i := (r.toUInt8 ^^^ b).toNat
  have _h : i < residues.size := by
    rw [size_residues]; exact UInt8.toNat_lt _
  (r >>> 8) ^^^ residues[i]

theorem advance_eq_residue (r : UInt32) (b : UInt8) :
    advance r b = (r >>> 8) ^^^ residue (r.toUInt8 ^^^ b) := by
  simp only [advance, residues, Array.getElem_ofFn, UInt8.ofNat_toNat]

/-- The register before the first byte. -/
def initial : UInt32 := 0xFFFFFFFF

/-- The checksum that a register stands for. -/
def finish (r : UInt32) : UInt32 := r ^^^ 0xFFFFFFFF

/-- Advances the register over `n` bytes from position `i` on, or to the end of the byte string. -/
def advanceOver (data : ByteArray) (r : UInt32) (i : Nat) : Nat → UInt32
  | 0 => r
  | n + 1 => if h : i < data.size then advanceOver data (advance r data[i]) (i + 1) n else r

/-- The register after a whole byte string. -/
def advanceAll (r : UInt32) (data : ByteArray) : UInt32 := advanceOver data r 0 data.size

/-- Checksum of the bytes from position `start` up to `stop`. -/
def checksumOf (data : ByteArray) (start stop : Nat) : UInt32 :=
  finish (advanceOver data initial start (stop - start))

/-- Checksum of a byte string. -/
def checksum (data : ByteArray) : UInt32 := finish (advanceAll initial data)

theorem advanceOver_eq_foldl (data : ByteArray) (r : UInt32) (i n : Nat) :
    advanceOver data r i n = (((octets data).drop i).take n).foldl advance r := by
  induction n generalizing r i with
  | zero => simp [advanceOver]
  | succ n ih =>
    unfold advanceOver
    split
    · rename_i h
      have hl : i < (octets data).length := by simpa using h
      have hg := getElem_octets data i h
      rw [List.getElem?_eq_getElem hl] at hg
      rw [List.drop_eq_getElem_cons hl, List.take_succ_cons, List.foldl_cons, Option.some.inj hg]
      exact ih _ _
    · rename_i h
      rw [List.drop_eq_nil_of_le (by simpa using Nat.le_of_not_lt h)]
      rfl

/-- The checksum is a left fold over the bytes, so it can be taken piece by piece. -/
theorem advanceAll_eq_foldl (r : UInt32) (data : ByteArray) :
    advanceAll r data = (octets data).foldl advance r := by
  rw [advanceAll, advanceOver_eq_foldl, List.drop_zero, ← length_octets, List.take_length]

end TripleStore.Crc32
