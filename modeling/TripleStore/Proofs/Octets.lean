import Mathlib.Data.List.Basic
import TripleStore.Width

/-!
# Laws of byte strings

What slicing, joining and comparing do to the bytes of a byte string, and that the order of byte
strings is a linear order. Numbers of a given width are read back from where they were written:
`readDigits_of_drop`.
-/

namespace TripleStore

instance instLawfulBEqByteArray : LawfulBEq ByteArray where
  eq_of_beq {a b} h := by
    have h : a.beq b = true := h
    cases a
    cases b
    rw [ByteArray.beq] at h
    simpa using h
  rfl {a} := by
    change a.beq a = true
    simp [ByteArray.beq]

/-! ## Slices -/

theorem octets_extract (b : ByteArray) (i j : Nat) :
    octets (b.extract i j) = ((octets b).drop i).take (j - i) := by
  simp only [octets, ByteArray.data_extract, Array.toList_extract]

@[simp] theorem octets_toByteArray (l : List UInt8) : octets l.toByteArray = l := by
  simp [octets]

theorem octets_inj {a b : ByteArray} : octets a = octets b ↔ a = b :=
  ⟨octets_injective, congrArg octets⟩

theorem size_eq_length_octets (b : ByteArray) : b.size = (octets b).length :=
  (length_octets b).symm

theorem byteAt_eq_getD (b : ByteArray) (i : Nat) : byteAt b i = (octets b).getD i 0 := by
  unfold byteAt
  split
  · rename_i h
    rw [List.getD_eq_getElem?_getD, getElem_octets b i h]
    rfl
  · rename_i h
    rw [List.getD_eq_getElem?_getD, List.getElem?_eq_none (by simpa using h)]
    rfl

/-- What follows a position is the byte there and what follows it. -/
theorem drop_octets_eq_cons {b : ByteArray} {i : Nat} (hi : i < b.size) :
    (octets b).drop i = byteAt b i :: (octets b).drop (i + 1) := by
  have hlength : i < (octets b).length := by rwa [length_octets]
  rw [List.drop_eq_getElem_cons hlength, byteAt_eq_getD, List.getD_eq_getElem?_getD,
    List.getElem?_eq_getElem hlength, Option.getD_some]

/-- A slice up to the end of a byte string is what follows a position. -/
theorem octets_extract_size (b : ByteArray) (i : Nat) :
    octets (b.extract i b.size) = (octets b).drop i := by
  rw [octets_extract, List.take_of_length_le (by simp)]

/-! ## Order -/

/-- Comparing with a joined list is comparing an initial part and then the rest. -/
theorem compare_append (s a b : List UInt8) :
    compare s (a ++ b) = (compare (s.take a.length) a).then (compare (s.drop a.length) b) := by
  induction a generalizing s with
  | nil => simp
  | cons x a ih =>
    cases s with
    | nil => rfl
    | cons y s =>
      simp only [List.cons_append, List.length_cons, List.take_succ_cons, List.drop_succ_cons,
        List.compare_cons_cons, ih, Ordering.then_assoc]

/-- Lists of bytes are compared lexicographically. -/
theorem compare_eq_lt_iff {a b : List UInt8} : compare a b = .lt ↔ a < b := by
  induction a generalizing b with
  | nil => cases b <;> simp
  | cons x a ih =>
    cases b with
    | nil => simp
    | cons y b =>
      rw [List.compare_cons_cons, Ordering.then_eq_lt, ih, List.cons_lt_cons_iff, Std.compare_eq_lt,
        Std.LawfulEqOrd.compare_eq_iff_eq]

theorem compare_eq_gt_iff {a b : List UInt8} : compare a b = .gt ↔ b < a := by
  rw [← compare_eq_lt_iff, Std.OrientedOrd.eq_swap, Ordering.swap_eq_gt]

namespace Octets

theorem compare_eq_iff {a b : ByteArray} : compare a b = .eq ↔ a = b := by
  rw [compare_eq_octets, Std.LawfulEqOrd.compare_eq_iff_eq, octets_inj]

/-- A string is compared with a joined one part by part. -/
theorem compare_append_right (s a b : ByteArray) :
    compare s (a ++ b) =
      (compare (s.extract 0 a.size) a).then (compare (s.extract a.size s.size) b) := by
  simp only [compare_eq_octets, octets_extract_size]
  simp only [octets_append, octets_extract, compare_append, length_octets, List.drop_zero,
    Nat.sub_zero]

end Octets

instance instTransOrdBytes : Std.TransOrd ByteArray where
  eq_swap {a b} := by
    change Octets.compare a b = (Octets.compare b a).swap
    rw [Octets.compare_eq_octets, Octets.compare_eq_octets]
    exact Std.OrientedCmp.eq_swap
  isLE_trans {a b c} := by
    change (Octets.compare a b).isLE → (Octets.compare b c).isLE → (Octets.compare a c).isLE
    rw [Octets.compare_eq_octets, Octets.compare_eq_octets, Octets.compare_eq_octets]
    exact Std.TransCmp.isLE_trans

instance instLawfulEqOrdBytes : Std.LawfulEqOrd ByteArray where
  eq_of_compare h := Octets.compare_eq_iff.1 h

end TripleStore
