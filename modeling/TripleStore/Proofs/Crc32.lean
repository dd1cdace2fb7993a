import Mathlib.Logic.Function.Iterate
import TripleStore.Crc32
import TripleStore.Proofs.Container.Bytes

/-!
# The checksum tells short changes

A shift of the register is linear in exclusive or, and no two registers shift to the same one. A
byte is added to the register before eight shifts (`advance_eq_iterate_shift`), so up to four bytes
are added as one word before all of their shifts (`foldl_advance_eq_iterate_shift`). Hence two byte
lists that differ only in four neighbouring bytes or fewer have different checksums, however long
they are (`foldl_advance_ne`).
-/

namespace TripleStore

/-- A byte and a multiple of 256 have no bit in common. -/
theorem xor_eq_add {c : Nat} (hc : c < 256) (n : Nat) : c ^^^ 2 ^ 8 * n = c + 256 * n := by
  have hmod : (c ^^^ 2 ^ 8 * n) % 2 ^ 8 = c := by
    rw [Nat.xor_mod_two_pow, Nat.mul_mod_right, Nat.xor_zero, Nat.mod_eq_of_lt hc]
  have hdiv : (c ^^^ 2 ^ 8 * n) / 2 ^ 8 = n := by
    rw [Nat.xor_div_two_pow, Nat.div_eq_of_lt hc, Nat.mul_div_cancel_left n (by decide),
      Nat.zero_xor]
  omega

namespace Crc32

/-! ## One bit -/

theorem and_one_eq_zero_iff (r : UInt32) : r &&& 1 = 0 ↔ r.toNat % 2 = 0 := by
  rw [← UInt32.toNat_inj, UInt32.toNat_and]
  exact Eq.congr (Nat.and_one_is_mod _) rfl

/-- **A shift is linear.** -/
theorem shift_xor (a b : UInt32) : shift (a ^^^ b) = shift a ^^^ shift b := by
  have hsum : (a ^^^ b).toNat % 2 = 1 ↔ ¬ (a.toNat % 2 = 1 ↔ b.toNat % 2 = 1) := by
    rw [UInt32.toNat_xor]
    exact Nat.xor_mod_two_eq_one
  simp only [shift, and_one_eq_zero_iff, UInt32.shiftRight_xor]
  rcases Nat.mod_two_eq_zero_or_one a.toNat with ha | ha <;>
    rcases Nat.mod_two_eq_zero_or_one b.toNat with hb | hb
  · rw [if_pos ha, if_pos hb, if_pos (by omega)]
  · rw [if_pos ha, if_neg (by omega), if_neg (by omega), UInt32.xor_assoc]
  · rw [if_neg (by omega), if_pos hb, if_neg (by omega), UInt32.xor_assoc, UInt32.xor_assoc,
      UInt32.xor_comm (b >>> 1)]
  · -- both bits are shifted out, and the polynomial cancels
    rw [if_pos (by omega), if_neg (by omega), if_neg (by omega), UInt32.xor_assoc,
      UInt32.xor_comm polynomial, UInt32.xor_assoc, UInt32.xor_self, UInt32.xor_zero]

theorem toNat_shiftRight_one (r : UInt32) : (r >>> 1).toNat = r.toNat / 2 := by
  rw [UInt32.toNat_shiftRight]
  exact Nat.shiftRight_eq_div_pow _ 1

/-- The polynomial has the highest bit, which a register that was shifted does not have. -/
theorem eq_zero_of_shift_eq_zero {r : UInt32} (h : shift r = 0) : r = 0 := by
  have hlt := r.toNat_lt
  have hhalf := toNat_shiftRight_one r
  unfold shift at h
  split at h
  · rename_i hlow
    rw [and_one_eq_zero_iff] at hlow
    rw [h] at hhalf
    refine UInt32.toNat_inj.1 ?_
    change 0 = r.toNat / 2 at hhalf
    change r.toNat = 0
    omega
  · rw [UInt32.xor_eq_zero_iff.1 h] at hhalf
    change 0xEDB88320 = r.toNat / 2 at hhalf
    omega

/-- **No two registers shift to the same one.** -/
theorem shift_injective : Function.Injective shift := fun a b h =>
  UInt32.xor_eq_zero_iff.1 (eq_zero_of_shift_eq_zero
    (by rw [shift_xor, h, UInt32.xor_self]))

theorem iterate_shift_xor (k : Nat) (a b : UInt32) :
    shift^[k] (a ^^^ b) = shift^[k] a ^^^ shift^[k] b := by
  induction k generalizing a b with
  | zero => rfl
  | succ k ih =>
    rw [Function.iterate_succ_apply, Function.iterate_succ_apply, Function.iterate_succ_apply,
      shift_xor, ih]

/-- Zeros that are shifted out leave the rest of the register. -/
theorem shift_two_mul {n : Nat} (hn : 2 * n < 2 ^ 32) :
    shift (UInt32.ofNat (2 * n)) = UInt32.ofNat n := by
  have hvalue : (UInt32.ofNat (2 * n)).toNat = 2 * n :=
    UInt32.toNat_ofNat'.trans (Nat.mod_eq_of_lt hn)
  have hlow : UInt32.ofNat (2 * n) &&& 1 = 0 := by
    rw [and_one_eq_zero_iff, hvalue, Nat.mul_mod_right]
  rw [shift, if_pos hlow, ← UInt32.toNat_inj, toNat_shiftRight_one, hvalue, UInt32.toNat_ofNat']
  omega

theorem iterate_shift_two_pow_mul (k : Nat) {n : Nat} (hn : 2 ^ k * n < 2 ^ 32) :
    shift^[k] (UInt32.ofNat (2 ^ k * n)) = UInt32.ofNat n := by
  induction k with
  | zero => rw [Nat.pow_zero, Nat.one_mul, Function.iterate_zero_apply]
  | succ k ih =>
    rw [Nat.pow_succ, Nat.mul_comm _ 2, Nat.mul_assoc] at hn ⊢
    rw [Function.iterate_succ_apply, shift_two_mul hn, ih (by omega)]

/-! ## Bytes -/

/-- The register is its low byte and the rest. -/
theorem eq_xor_toUInt8 (r : UInt32) :
    r = UInt32.ofNat (2 ^ 8 * (r.toNat / 256)) ^^^ r.toUInt8.toUInt32 := by
  have hlow : r.toUInt8.toUInt32 = UInt32.ofNat (r.toNat % 256) := by
    rw [← UInt32.toNat_inj, UInt32.toNat_ofNat']
    change r.toNat % 256 = _
    omega
  rw [hlow, UInt32.xor_comm, ← UInt32.ofNat_xor, xor_eq_add (Nat.mod_lt _ (by decide)),
    Nat.mod_add_div, UInt32.ofNat_toNat]

/-- **A byte is added to the register before eight shifts.** -/
theorem advance_eq_iterate_shift (r : UInt32) (b : UInt8) :
    advance r b = shift^[8] (r ^^^ b.toUInt32) := by
  have hlt := r.toNat_lt
  have hhigh : r >>> 8 = UInt32.ofNat (r.toNat / 256) := by
    rw [← UInt32.toNat_inj, UInt32.toNat_shiftRight, UInt32.toNat_ofNat']
    change r.toNat >>> 8 = _
    rw [Nat.shiftRight_eq_div_pow]
    omega
  rw [advance_eq_residue, hhigh, ← iterate_shift_two_pow_mul 8 (by omega)]
  change _ ^^^ shift^[8] (r.toUInt8 ^^^ b).toUInt32 = _
  conv => rhs; rw [eq_xor_toUInt8 r]
  rw [← iterate_shift_xor, UInt8.toUInt32_xor, UInt32.xor_assoc]

theorem advance_injective (b : UInt8) : Function.Injective (advance · b) := by
  intro r s h
  simp only [advance_eq_iterate_shift] at h
  exact (UInt32.xor_left_inj _).1 (shift_injective.iterate 8 h)

/-- Bytes that follow keep two registers apart. -/
theorem foldl_advance_injective (l : List UInt8) : Function.Injective (l.foldl advance) := by
  induction l with
  | nil => exact fun _ _ h => h
  | cons b l ih => exact fun r s h => advance_injective b (ih h)

/-- **Up to four bytes are added to the register as one word.** -/
theorem foldl_advance_eq_iterate_shift {u : List UInt8} (hu : u.length ≤ 4) (r : UInt32) :
    u.foldl advance r = shift^[8 * u.length] (r ^^^ UInt32.ofNat (ofDigits u)) := by
  induction u generalizing r with
  | nil => exact UInt32.xor_zero.symm
  | cons b u ih =>
    rw [List.length_cons] at hu
    have hword : 2 ^ 8 * ofDigits u < 2 ^ 32 := by
      have hlt := ofDigits_lt u
      have hpow : 256 ^ u.length ≤ 256 ^ 3 := Nat.pow_le_pow_right (by decide) (by omega)
      omega
    have hbyte : b.toUInt32 = UInt32.ofNat b.toNat := by
      rw [← UInt32.toNat_inj, UInt32.toNat_ofNat', Nat.mod_eq_of_lt]
      · rfl
      · exact Nat.lt_trans b.toNat_lt (by decide)
    calc (b :: u).foldl advance r
        = shift^[8 * u.length] (advance r b ^^^ UInt32.ofNat (ofDigits u)) :=
          ih (by omega) (advance r b)
      _ = shift^[8 * u.length] (shift^[8] (r ^^^ b.toUInt32) ^^^
            shift^[8] (UInt32.ofNat (2 ^ 8 * ofDigits u))) := by
          rw [advance_eq_iterate_shift, iterate_shift_two_pow_mul 8 hword]
      _ = shift^[8 * u.length] (shift^[8] (r ^^^ UInt32.ofNat (ofDigits (b :: u)))) := by
          rw [← iterate_shift_xor, UInt32.xor_assoc, hbyte, ← UInt32.ofNat_xor,
            xor_eq_add b.toNat_lt, ofDigits]
      _ = shift^[8 * (b :: u).length] (r ^^^ UInt32.ofNat (ofDigits (b :: u))) := by
          rw [← Function.iterate_add_apply, List.length_cons, Nat.mul_succ]

/-- Four bytes or fewer can be told from the register after them. -/
theorem eq_of_foldl_advance_eq {u v : List UInt8} (hlength : u.length = v.length)
    (hu : u.length ≤ 4) {r : UInt32} (h : u.foldl advance r = v.foldl advance r) : u = v := by
  rw [foldl_advance_eq_iterate_shift hu, foldl_advance_eq_iterate_shift (hlength ▸ hu),
    hlength] at h
  have hword := (UInt32.xor_right_inj _).1 (shift_injective.iterate _ h)
  have hlt : ∀ w : List UInt8, w.length ≤ 4 → ofDigits w < 2 ^ 32 := fun w hw =>
    Nat.lt_of_lt_of_le (ofDigits_lt w) (Nat.pow_le_pow_right (by decide : 0 < 256) hw)
  have hvalue := congrArg UInt32.toNat hword
  rw [UInt32.toNat_ofNat', UInt32.toNat_ofNat', Nat.mod_eq_of_lt (hlt u hu),
    Nat.mod_eq_of_lt (hlt v (hlength ▸ hu))] at hvalue
  exact ofDigits_injective hlength hvalue

/-- **Four neighbouring bytes or fewer cannot change without the register.** -/
theorem foldl_advance_ne {u v : List UInt8} (hlength : u.length = v.length) (hu : u.length ≤ 4)
    (hne : u ≠ v) (front back : List UInt8) (r : UInt32) :
    (front ++ u ++ back).foldl advance r ≠ (front ++ v ++ back).foldl advance r := by
  simp only [List.foldl_append]
  exact fun h => hne (eq_of_foldl_advance_eq hlength hu (foldl_advance_injective back h))

theorem checksumOf_eq_foldl (data : ByteArray) (start stop : Nat) :
    checksumOf data start stop =
      finish ((((octets data).drop start).take (stop - start)).foldl advance initial) := by
  rw [checksumOf, advanceOver_eq_foldl]

/-- The checksum of a slice, taken as a byte string. -/
theorem checksum_extract (data : ByteArray) (start stop : Nat) :
    checksum (data.extract start stop) = checksumOf data start stop := by
  rw [checksum, advanceAll_eq_foldl, octets_extract, checksumOf_eq_foldl]

end Crc32

end TripleStore
