import Mathlib.Algebra.Group.Nat.Defs
import TripleStore.Proofs.Octets

/-!
# Bytes at a position

`HasBytes data i l` says that the bytes `l` stand in `data` from position `i` on. It splits along
joined lists (`hasBytes_append`), and what stands somewhere is what is read there: a slice
(`octets_extract_of_hasBytes`), an integer (`readDigits_of_hasBytes`), an entry of an array
(`hasBytes_of_flatMap`).
-/

namespace TripleStore

/-- The bytes stand in a byte string from a position on. -/
def HasBytes (data : ByteArray) (i : Nat) (bytes : List UInt8) : Prop :=
  bytes <+: (octets data).drop i

variable {data : ByteArray} {i w n : Nat} {a b : List UInt8}

theorem hasBytes_append :
    HasBytes data i (a ++ b) ↔ HasBytes data i a ∧ HasBytes data (i + a.length) b := by
  unfold HasBytes
  rw [← List.drop_drop]
  constructor
  · rintro ⟨c, hc⟩
    rw [← hc]
    exact ⟨⟨b ++ c, by simp⟩, ⟨c, by simp⟩⟩
  · rintro ⟨⟨c, hc⟩, hb⟩
    rw [← hc, List.drop_left] at hb
    obtain ⟨d, rfl⟩ := hb
    exact ⟨d, by rw [← hc, List.append_assoc]⟩

theorem hasBytes_cons {x : UInt8} :
    HasBytes data i (x :: b) ↔ HasBytes data i [x] ∧ HasBytes data (i + 1) b :=
  hasBytes_append (a := [x])

/-- The parts of a byte string stand where the parts before them end. -/
theorem hasBytes_of_octets_eq {pre post : List UInt8} (h : octets data = pre ++ (b ++ post)) :
    HasBytes data pre.length b := by
  rw [HasBytes, h, List.drop_left]
  exact List.prefix_append _ _

theorem HasBytes.le_size (h : HasBytes data i b) (hi : i ≤ data.size) :
    i + b.length ≤ data.size := by
  have := h.length_le
  rw [List.length_drop, length_octets] at this
  omega

theorem HasBytes.length_le_size (h : HasBytes data i b) : b.length ≤ data.size := by
  have := List.IsPrefix.length_le h
  rw [List.length_drop, length_octets] at this
  omega

/-- A slice is what stands there. -/
theorem octets_extract_of_hasBytes (h : HasBytes data i b) :
    octets (data.extract i (i + b.length)) = b := by
  rw [octets_extract, Nat.add_sub_cancel_left]
  exact (List.prefix_iff_eq_take.1 h).symm

theorem byteAt_of_hasBytes {x : UInt8} (h : HasBytes data i [x]) : byteAt data i = x := by
  obtain ⟨c, hc⟩ := h
  have hx : (octets data)[i]? = some x := by
    have := congrArg (·[0]?) hc
    simpa using this.symm
  rw [byteAt_eq_getD, List.getD_eq_getElem?_getD, hx]
  rfl

/-! ## Integers -/

/-- A number that is written somewhere is read there, as far as its digits reach. -/
theorem readDigits_of_hasBytes_mod (h : HasBytes data i (digits w n)) :
    readDigits data i w = n % 256 ^ w := by
  induction w generalizing i n with
  | zero => simp [readDigits, Nat.mod_one]
  | succ w ih =>
    obtain ⟨hb, hrest⟩ := hasBytes_cons.1 h
    have hbyte : (UInt8.ofNat n).toNat = n % 256 := UInt8.toNat_ofNat'
    rw [readDigits, byteAt_of_hasBytes hb, ih hrest, hbyte, Nat.pow_succ', Nat.mod_mul]

/-- **A number that fits its width is read where it is written.** -/
theorem readDigits_of_hasBytes (h : HasBytes data i (digits w n)) (hn : n < 256 ^ w) :
    readDigits data i w = n := by
  rw [readDigits_of_hasBytes_mod h, Nat.mod_eq_of_lt hn]

/-- The number whose digits are some bytes, the lowest one first. -/
def ofDigits : List UInt8 → Nat
  | [] => 0
  | b :: u => b.toNat + 256 * ofDigits u

theorem ofDigits_lt (u : List UInt8) : ofDigits u < 256 ^ u.length := by
  induction u with
  | nil => simp [ofDigits]
  | cons b u ih =>
    have hb := b.toNat_lt
    rw [ofDigits, List.length_cons, Nat.pow_succ]
    omega

theorem digits_ofDigits (u : List UInt8) : digits u.length (ofDigits u) = u := by
  induction u with
  | nil => rfl
  | cons b u ih =>
    have hb := b.toNat_lt
    have hlow : UInt8.ofNat (b.toNat + 256 * ofDigits u) = b := by
      rw [← UInt8.toNat_inj, UInt8.toNat_ofNat']
      omega
    have hhigh : (b.toNat + 256 * ofDigits u) / 256 = ofDigits u := by omega
    rw [ofDigits, List.length_cons, digits, hlow, hhigh, ih]

theorem ofDigits_injective {u v : List UInt8} (hlength : u.length = v.length)
    (h : ofDigits u = ofDigits v) : u = v := by
  rw [← digits_ofDigits u, h, hlength, digits_ofDigits]

theorem readDigits_eq_ofDigits (h : i + w ≤ data.size) :
    readDigits data i w = ofDigits (((octets data).drop i).take w) := by
  induction w generalizing i with
  | zero => rfl
  | succ w ih =>
    rw [drop_octets_eq_cons (by omega), List.take_succ_cons, ofDigits, ← ih (by omega), readDigits]

/-- A number that is read somewhere is written there. -/
theorem digits_readDigits (h : i + w ≤ data.size) :
    digits w (readDigits data i w) = ((octets data).drop i).take w := by
  have hlength : (((octets data).drop i).take w).length = w := by
    rw [List.length_take, List.length_drop, length_octets]
    omega
  have hdigits := digits_ofDigits (((octets data).drop i).take w)
  rwa [← readDigits_eq_ofDigits h, hlength] at hdigits

theorem readDigits_lt (data : ByteArray) (i w : Nat) : readDigits data i w < 256 ^ w := by
  induction w generalizing i with
  | zero => exact Nat.one_pos
  | succ w ih =>
    have hbyte := (byteAt data i).toNat_lt
    have hrest := ih (i + 1)
    rw [readDigits, Nat.pow_succ]
    omega

/-! A field is read without loss, since its bytes are as many as its type has. -/

theorem toNat_uint16_readDigits (data : ByteArray) (i : Nat) :
    (UInt16.ofNat (readDigits data i 2)).toNat = readDigits data i 2 :=
  UInt16.toNat_ofNat'.trans (Nat.mod_eq_of_lt (readDigits_lt data i 2))

theorem toNat_uint32_readDigits (data : ByteArray) (i : Nat) :
    (UInt32.ofNat (readDigits data i 4)).toNat = readDigits data i 4 :=
  UInt32.toNat_ofNat'.trans (Nat.mod_eq_of_lt (readDigits_lt data i 4))

theorem toNat_uint64_readDigits (data : ByteArray) (i : Nat) :
    (UInt64.ofNat (readDigits data i 8)).toNat = readDigits data i 8 :=
  UInt64.toNat_ofNat'.trans (Nat.mod_eq_of_lt (readDigits_lt data i 8))

/-- A number is read from a slice as it is read behind the start of the slice. -/
theorem readDigits_extract {start stop : Nat} (hi : start + i + w ≤ stop)
    (hstop : stop ≤ data.size) :
    readDigits (data.extract start stop) i w = readDigits data (start + i) w := by
  rw [readDigits_eq_ofDigits (by rw [ByteArray.size_extract]; omega),
    readDigits_eq_ofDigits (by omega), octets_extract, List.drop_take, List.take_take,
    List.drop_drop, Nat.min_eq_left (by omega)]

/-! ## Arrays -/

section

variable {α : Type} {bytes : α → List UInt8} {m : Nat}

theorem length_flatMap_of_length (h : ∀ a, (bytes a).length = m) (l : List α) :
    (l.flatMap bytes).length = l.length * m := by
  simp [List.length_flatMap, h]

/-- The entries of an array stand one after another. -/
theorem hasBytes_of_flatMap (h : ∀ a, (bytes a).length = m) {l : List α}
    (hb : HasBytes data i (l.flatMap bytes)) {k : Nat} (hk : k < l.length) :
    HasBytes data (i + k * m) (bytes l[k]) := by
  induction l generalizing i k with
  | nil => simp at hk
  | cons a l ih =>
    obtain ⟨ha, hrest⟩ := hasBytes_append.1 hb
    cases k with
    | zero => simpa using ha
    | succ k =>
      have := ih hrest (Nat.lt_of_succ_lt_succ hk)
      rwa [h, Nat.add_assoc, Nat.add_comm m, ← Nat.succ_mul] at this

end

/-! ## Widths -/

/-- Numbers below this one fit the width. -/
def Width.limit (w : Width) : Nat := 256 ^ w.bytes

theorem Width.bytes_pos (w : Width) : 0 < w.bytes := by
  cases w <;> decide

theorem Width.limit_eq (w : Width) :
    w.limit = match w with
      | two => limit16
      | four => limit32
      | eight => limit64 := by
  cases w <;> rfl

/-- The width that is chosen for a maximum fits every number up to it. -/
theorem Width.lt_limit_forMax {n m : Nat} (hn : n ≤ m) (hm : m < limit64) :
    n < (forMax m).limit := by
  unfold forMax
  split
  · simp only [limit_eq]; omega
  · split
    · simp only [limit_eq]; omega
    · simp only [limit_eq]; omega

theorem stop_le_of_hasBytes {w : Width} (h : HasBytes data i (digits w.bytes n)) :
    i + w.bytes ≤ data.size := by
  have hi : i ≤ data.size := by
    have hle := h.length_le
    have := w.bytes_pos
    rw [List.length_drop, length_octets, length_digits] at hle
    omega
  have hsize := h.le_size hi
  rwa [length_digits] at hsize

/-- **A stored integer is read back.** -/
theorem readUInt?_of_hasBytes {w : Width} (h : HasBytes data i (digits w.bytes n))
    (hn : n < w.limit) : readUInt? data i w = some n := by
  rw [readUInt?, if_pos (stop_le_of_hasBytes h), readDigits_of_hasBytes h hn]

end TripleStore
