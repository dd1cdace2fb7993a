import Mathlib.Tactic.Ring
import TripleStore.Proofs.Container.Bytes
import TripleStore.Sorter

/-!
# Records are read back

A record that a sorter wrote is read back from the front of a run (`Record.Fits`): every row is, and
every byte string whose length has 64 bits. So a run that holds a list of records is read at its
first one, and what is left of it holds the others (`Head.read?_flatMap_encode`).
-/

namespace TripleStore

/-! ## Numbers in groups -/

namespace Varint

/-- A number of one group is read back. -/
theorem decodeFrom_encode_of_lt {n unit : Nat} (groups : Nat) (rest : List UInt8) (hn : n < 128)
    (hlimit : n * unit < limit64) :
    decodeFrom unit (groups + 1) (encode n ++ rest) = .ok (n * unit, rest) := by
  have hbyte : (UInt8.ofNat n).toNat = n := by
    rw [UInt8.toNat_ofNat', Nat.mod_eq_of_lt (by omega)]
  rw [encode, if_pos hn]
  simp only [List.singleton_append, decodeFrom, hbyte, if_pos hn]
  rw [Nat.mod_eq_of_lt hn, Nat.mod_eq_of_lt hlimit]

theorem decodeFrom_encode {groups n unit : Nat} (rest : List UInt8)
    (hgroups : n < 128 ^ (groups + 1)) (hlimit : n * unit < limit64) :
    decodeFrom unit (groups + 1) (encode n ++ rest) = .ok (n * unit, rest) := by
  induction groups generalizing n unit with
  | zero => exact decodeFrom_encode_of_lt 0 rest (by simpa using hgroups) hlimit
  | succ groups ih =>
    by_cases hn : n < 128
    · exact decodeFrom_encode_of_lt (groups + 1) rest hn hlimit
    have hbyte : (UInt8.ofNat (n % 128 + 128)).toNat = n % 128 + 128 := by
      rw [UInt8.toNat_ofNat', Nat.mod_eq_of_lt (by omega)]
    have hsum : n % 128 * unit + n / 128 * (unit * 128) = n * unit := by
      calc n % 128 * unit + n / 128 * (unit * 128) = (n % 128 + 128 * (n / 128)) * unit := by ring
        _ = n * unit := by rw [Nat.mod_add_div]
    have hlower : n / 128 < 128 ^ (groups + 1) := by
      rw [Nat.pow_succ] at hgroups
      omega
    rw [encode, if_neg hn]
    simp only [List.cons_append, decodeFrom, hbyte, Nat.add_mod_right, Nat.mod_mod]
    rw [if_neg (by omega), ih hlower (by omega), Nat.mod_eq_of_lt (by omega)]
    exact map_eq_ok.2 ⟨_, rfl, Prod.ext hsum rfl⟩

/-- A number of 64 bits is read back. -/
theorem decode_encode {n : Nat} (rest : List UInt8) (h : n < limit64) :
    decode (encode n ++ rest) = .ok (n, rest) := by
  have hgroups : n < 128 ^ (9 + 1) := Nat.lt_trans h (by decide)
  have := decodeFrom_encode rest hgroups (by rwa [Nat.mul_one])
  rwa [Nat.mul_one] at this

end Varint

/-! ## Records -/

/-- The record is read back from the front of a run. -/
structure Record.Fits {α : Type} [Record α] (a : α) : Prop where
  decode_encode : ∀ rest, decode (encode a ++ rest) = .ok (a, rest)

theorem Record.Fits.encode_ne_nil {α : Type} [Record α] {a : α} (h : Record.Fits a) :
    encode a ≠ [] := by
  have hlength := length_lt_of_decode (h.decode_encode [])
  rintro hnil
  simp [hnil] at hlength

/-- A byte string is read back if its length has 64 bits. -/
theorem fits_bytes {b : ByteArray} (h : b.size < limit64) : Record.Fits b where
  decode_encode rest := by
    have hb : (octets b).toByteArray = b := octets_injective (octets_toByteArray _)
    change (Varint.decode (Varint.encode b.size ++ octets b ++ rest) >>= _) = _
    rw [List.append_assoc]
    refine bind_eq_ok.2 ⟨_, Varint.decode_encode _ h, ?_⟩
    simp [← length_octets, hb, pure, Except.pure]

theorem takeWord_digits (n : UInt64) (rest : List UInt8) :
    takeWord (digits 8 n.toNat ++ rest) = .ok (n, rest) := by
  have hb : HasBytes (digits 8 n.toNat).toByteArray 0 (digits 8 n.toNat) := by
    simp [HasBytes]
  have := readDigits_of_hasBytes hb n.toNat_lt
  simp only [digits, List.cons_append, List.nil_append, takeWord] at this ⊢
  rw [this, UInt64.ofNat_toNat]

/-- Every row is read back. -/
theorem fits_row (r : Row) : Record.Fits r where
  decode_encode rest := by
    change (takeWord (digits 8 r.key.toNat ++ digits 8 r.subKey.toNat ++ digits 8 r.value.toNat ++
      rest) >>= _) = _
    rw [List.append_assoc, List.append_assoc]
    exact bind_eq_ok.2 ⟨_, takeWord_digits _ _, bind_eq_ok.2 ⟨_, takeWord_digits _ _,
      bind_eq_ok.2 ⟨_, takeWord_digits _ _, rfl⟩⟩⟩

/-! ## Runs -/

namespace Head

variable {α : Type} [Record α]

/-- The head of run number `i` if these records are left of it. -/
def first? (i : Nat) : List α → Option (Head α)
  | [] => none
  | a :: l => some ⟨a, i, l.flatMap Record.encode⟩

/-- **A run is read back record by record.** -/
theorem read?_flatMap_encode {l : List α} (h : ∀ a ∈ l, Record.Fits a) (i : Nat) :
    read? i (l.flatMap Record.encode) = .ok (first? i l) := by
  cases l with
  | nil => rfl
  | cons a l =>
    have ha := h a List.mem_cons_self
    have hnonempty : (a :: l).flatMap Record.encode ≠ [] :=
      List.append_ne_nil_of_left_ne_nil ha.encode_ne_nil _
    rw [read?, if_neg (mt List.isEmpty_iff.1 hnonempty), List.flatMap_cons, ha.decode_encode]
    rfl

end Head

end TripleStore
