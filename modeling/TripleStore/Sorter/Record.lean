import TripleStore.Result
import TripleStore.Triple
import TripleStore.Width

/-!
# Records of a run file

A sorter writes sorted runs of records to files and reads them back. A byte string is written as its
length, in groups of seven bits, and its bytes; a row as three integers of eight bytes. Every record
says where it ends, so a run is the records one after another, and `Record.decode` takes the first
one off.
-/

namespace TripleStore

namespace Varint

/-- A number in groups of seven bits, lowest first, each but the last marked by its high bit. -/
def encode (n : Nat) : List UInt8 :=
  if n < 128 then [UInt8.ofNat n] else UInt8.ofNat (n % 128 + 128) :: encode (n / 128)
termination_by n
decreasing_by omega

/-- Reads up to `groups` groups, the first of which counts in units of `unit`. The number is taken
modulo `limit64`. -/
def decodeFrom (unit : Nat) : Nat → List UInt8 → Except FileFault (Nat × List UInt8)
  | 0, _ => .error .lengthTooLong
  | _ + 1, [] => .error .endsEarly
  | groups + 1, b :: rest =>
    let part := b.toNat % 128 * unit % limit64
    if b.toNat < 128 then .ok (part, rest)
    else (decodeFrom (unit * 128) groups rest).map fun (n, rest) => (part + n, rest)

/-- The number at the front of a list of bytes, in at most ten groups, and what follows it. -/
def decode (bytes : List UInt8) : Except FileFault (Nat × List UInt8) := decodeFrom 1 10 bytes

theorem length_lt_of_decodeFrom {unit groups n : Nat} {bytes rest : List UInt8}
    (h : decodeFrom unit groups bytes = .ok (n, rest)) : rest.length < bytes.length := by
  induction groups generalizing unit n bytes with
  | zero => simp [decodeFrom] at h
  | succ groups ih =>
    cases bytes with
    | nil => simp [decodeFrom] at h
    | cons b bytes =>
      simp only [decodeFrom] at h
      split at h
      · obtain ⟨-, rfl⟩ := Prod.mk.inj (Except.ok.inj h)
        simp
      · obtain ⟨⟨k, rest'⟩, hrest, heq⟩ := map_eq_ok.1 h
        obtain ⟨-, rfl⟩ := Prod.mk.inj heq
        exact Nat.lt_succ_of_lt (ih hrest)

end Varint

/-- A type of records that a sorter can write to a run file. -/
class Record (α : Type) where
  /-- What a record counts against the budget of a sorter. -/
  footprint : α → Nat
  /-- The bytes of a record in a run. -/
  encode : α → List UInt8
  /-- The record at the front of a run, and the rest of the run. -/
  decode : List UInt8 → Except FileFault (α × List UInt8)
  /-- A record takes at least one byte. -/
  length_lt_of_decode : ∀ {a : α} {bytes rest : List UInt8},
    decode bytes = .ok (a, rest) → rest.length < bytes.length

instance instRecordBytes : Record ByteArray where
  footprint b := b.size + 24
  encode b := Varint.encode b.size ++ octets b
  decode bytes := do
    let (n, rest) ← Varint.decode bytes
    if n ≤ rest.length then return ((rest.take n).toByteArray, rest.drop n)
    else throw .endsEarly
  length_lt_of_decode {a bytes rest} h := by
    obtain ⟨⟨n, following⟩, hn, h⟩ := bind_eq_ok.1 h
    have hlength := Varint.length_lt_of_decodeFrom hn
    dsimp only at h
    split at h
    · obtain ⟨-, rfl⟩ := Prod.mk.inj (Except.ok.inj h)
      rw [List.length_drop]
      omega
    · cases h

/-- The number in the first eight of a list of bytes, and the rest. -/
def takeWord (bytes : List UInt8) : Except FileFault (UInt64 × List UInt8) :=
  match bytes with
  | a :: b :: c :: d :: e :: f :: g :: h :: rest =>
    .ok (UInt64.ofNat (readDigits [a, b, c, d, e, f, g, h].toByteArray 0 8), rest)
  | _ => .error .endsEarly

theorem length_lt_of_takeWord {n : UInt64} {bytes rest : List UInt8}
    (h : takeWord bytes = .ok (n, rest)) : rest.length < bytes.length := by
  unfold takeWord at h
  split at h
  · obtain ⟨-, rfl⟩ := Prod.mk.inj (Except.ok.inj h)
    simp only [List.length_cons]
    omega
  · cases h

instance instRecordRow : Record Row where
  footprint _ := 24
  encode r := digits 8 r.key.toNat ++ digits 8 r.subKey.toNat ++ digits 8 r.value.toNat
  decode bytes := do
    let (key, rest) ← takeWord bytes
    let (subKey, rest) ← takeWord rest
    let (value, rest) ← takeWord rest
    return (⟨key, subKey, value⟩, rest)
  length_lt_of_decode {a bytes rest} h := by
    obtain ⟨⟨key, rest₁⟩, hkey, h⟩ := bind_eq_ok.1 h
    obtain ⟨⟨subKey, rest₂⟩, hsub, h⟩ := bind_eq_ok.1 h
    obtain ⟨⟨value, rest₃⟩, hvalue, h⟩ := bind_eq_ok.1 h
    obtain ⟨-, rfl⟩ := Prod.mk.inj (Except.ok.inj h)
    exact Nat.lt_trans (length_lt_of_takeWord hvalue)
      (Nat.lt_trans (length_lt_of_takeWord hsub) (length_lt_of_takeWord hkey))

end TripleStore
