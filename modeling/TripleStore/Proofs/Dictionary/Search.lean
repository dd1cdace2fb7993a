import TripleStore.Dictionary
import TripleStore.Proofs.Octets

/-!
# Searching a dictionary

Binary search for a key, whatever the file holds. A search that answers an id has read the key at
that id (`get_of_find`), in a file of unordered strings as well, and two parts of a key are searched
as their join is (`find_parts_eq_find_whole`).
-/

namespace TripleStore

/-- Two parts of a key are compared as their join. -/
theorem Key.compareStored_eq (stored : ByteArray) (key : Key) :
    key.compareStored stored = Octets.compare stored key.bytes := by
  cases key with
  | whole b => rfl
  | parts a b =>
    simp only [compareStored, bytes, Octets.compare_append_right]
    cases Octets.compare (stored.extract 0 a.size) a <;> rfl

/-- A stored string is compared with a key byte by byte. -/
theorem Key.compareStored_eq_octets (stored : ByteArray) (key : Key) :
    key.compareStored stored = compare (octets stored) (octets key.bytes) := by
  rw [compareStored_eq, Octets.compare_eq_octets]

namespace Dictionary

variable {d : Dictionary} {key : Key} {lo hi id : Nat}

/-- A search of a window that answers an id has read the key there. -/
theorem string_of_findBetween (h : d.findBetween key lo hi = .ok id) (hid : id ≠ 0) :
    lo < id ∧ id ≤ hi ∧ d.string (id - 1) = .ok key.bytes := by
  fun_induction findBetween d key lo hi with
  | case1 lo hi hlt mid e hs => simp at h
  | case2 lo hi hlt mid stored hs hc ih =>
    obtain ⟨h₁, h₂, h₃⟩ := ih h
    exact ⟨by omega, h₂, h₃⟩
  | case3 lo hi hlt mid stored hs hc ih =>
    obtain ⟨h₁, h₂, h₃⟩ := ih h
    exact ⟨h₁, by omega, h₃⟩
  | case4 lo hi hlt mid stored hs hc =>
    obtain rfl : mid + 1 = id := by simpa using h
    rw [Key.compareStored_eq, Octets.compare_eq_iff] at hc
    exact ⟨by omega, by omega, by simpa [hc] using hs⟩
  | case5 lo hi hlt => simp_all

/-- **What a search finds, it has read.** -/
theorem get_of_find (h : d.find key = .ok id) (hid : id ≠ 0) : d.get id = .ok key.bytes := by
  obtain ⟨hlo, hhi, hs⟩ := string_of_findBetween h hid
  have hr : 1 ≤ id ∧ id ≤ d.count := ⟨by omega, hhi⟩
  simp [get, require, hr, hs, bind, Except.bind]

/-- A search only compares with the key, so keys of the same bytes have the same answer. -/
theorem findBetween_congr {other : Key} (h : key.bytes = other.bytes) :
    d.findBetween key lo hi = d.findBetween other lo hi := by
  have hcompare (stored : ByteArray) : key.compareStored stored = other.compareStored stored := by
    rw [Key.compareStored_eq, Key.compareStored_eq, h]
  fun_induction findBetween d key lo hi with
  | case1 lo hi hlt mid e hs =>
    rw [findBetween, if_pos hlt]
    simp only [hs, mid]
  | case2 lo hi hlt mid stored hs hc ih =>
    conv_rhs => rw [findBetween, if_pos hlt]
    simp only [← hcompare, hs, hc, ih, mid]
  | case3 lo hi hlt mid stored hs hc ih =>
    conv_rhs => rw [findBetween, if_pos hlt]
    simp only [← hcompare, hs, hc, ih, mid]
  | case4 lo hi hlt mid stored hs hc =>
    rw [findBetween, if_pos hlt]
    simp only [← hcompare, hs, hc, mid]
  | case5 lo hi hlt => rw [findBetween, if_neg hlt]

/-- **Two parts stand for their join.** Any stored string is compared with two parts as with their
join, which is lexicographically by byte, and a dictionary answers the same for both, an id or an
error, whatever its file holds and in whatever order. -/
theorem find_parts_eq_find_whole (a b : ByteArray) :
    (∀ stored,
      (Key.parts a b).compareStored stored = (Key.whole (a ++ b)).compareStored stored ∧
      ((Key.parts a b).compareStored stored = .lt ↔ octets stored < octets a ++ octets b) ∧
      ((Key.parts a b).compareStored stored = .eq ↔ stored = a ++ b) ∧
      ((Key.parts a b).compareStored stored = .gt ↔ octets a ++ octets b < octets stored)) ∧
    ∀ d : Dictionary, d.find (.parts a b) = d.find (.whole (a ++ b)) := by
  have hbytes : (Key.parts a b).bytes = (Key.whole (a ++ b)).bytes := rfl
  refine ⟨fun stored => ⟨?_, ?_, ?_, ?_⟩, fun d => findBetween_congr hbytes⟩
  · rw [Key.compareStored_eq, Key.compareStored_eq, hbytes]
  · rw [Key.compareStored_eq_octets, compare_eq_lt_iff, Key.bytes, octets_append]
  · rw [Key.compareStored_eq, Octets.compare_eq_iff, Key.bytes]
  · rw [Key.compareStored_eq_octets, compare_eq_gt_iff, Key.bytes, octets_append]

end Dictionary

end TripleStore
