/-!
# Byte strings and their order

Stored strings, keys and whole files are `ByteArray`s. Laws about them are stated on the list of
their bytes, `octets`. The order is lexicographic by unsigned byte, a proper initial part first:
`Octets.compare` scans the packed bytes, and `compare_eq_octets` says that it is the order of the
lists.
-/

namespace TripleStore

/-- The bytes of a byte string, first to last. -/
def octets (b : ByteArray) : List UInt8 := b.data.toList

@[simp] theorem length_octets (b : ByteArray) : (octets b).length = b.size := by
  simp [octets]

@[simp] theorem octets_empty : octets ByteArray.empty = [] := rfl

@[simp] theorem octets_append (a b : ByteArray) : octets (a ++ b) = octets a ++ octets b := by
  simp [octets]

@[simp] theorem octets_push (a : ByteArray) (x : UInt8) : octets (a.push x) = octets a ++ [x] := by
  simp [octets]

theorem octets_injective {a b : ByteArray} (h : octets a = octets b) : a = b :=
  ByteArray.ext (Array.toList_inj.1 h)

theorem getElem_octets (b : ByteArray) (i : Nat) (h : i < b.size) :
    (octets b)[i]? = some b[i] := by
  rw [ByteArray.getElem_eq_getElem_data]
  simp [octets, h]

namespace Octets

/-- Compares what is left of two byte strings from position `i` on. -/
def compareFrom (a b : ByteArray) (i : Nat) : Ordering :=
  if _ha : i < a.size then
    if _hb : i < b.size then
      match Ord.compare a[i] b[i] with
      | .eq => compareFrom a b (i + 1)
      | .lt => .lt
      | .gt => .gt
    else .gt
  else if i < b.size then .lt else .eq
termination_by a.size - i

/-- Lexicographic order by unsigned byte. -/
def compare (a b : ByteArray) : Ordering := compareFrom a b 0

theorem compareFrom_eq_drop (a b : ByteArray) (i : Nat) :
    compareFrom a b i = Ord.compare ((octets a).drop i) ((octets b).drop i) := by
  have step : ∀ (s : ByteArray) (i : Nat) (h : i < s.size),
      (octets s).drop i = s[i] :: (octets s).drop (i + 1) := by
    intro s i h
    have hl : i < (octets s).length := by simpa using h
    rw [List.drop_eq_getElem_cons hl]
    have := getElem_octets s i h
    rw [List.getElem?_eq_getElem hl] at this
    rw [Option.some.inj this]
  have done : ∀ (s : ByteArray) (i : Nat), ¬ i < s.size → (octets s).drop i = [] := by
    intro s i h
    exact List.drop_eq_nil_of_le (by simpa using Nat.le_of_not_lt h)
  fun_induction compareFrom a b i with
  | case1 i ha hb hc ih => rw [step a i ha, step b i hb, List.compare_cons_cons, hc]; exact ih
  | case2 i ha hb hc => rw [step a i ha, step b i hb, List.compare_cons_cons, hc]; rfl
  | case3 i ha hb hc => rw [step a i ha, step b i hb, List.compare_cons_cons, hc]; rfl
  | case4 i ha hb => rw [step a i ha, done b i hb]; rfl
  | case5 i ha hb => rw [done a i ha, step b i hb]; rfl
  | case6 i ha hb => rw [done a i ha, done b i hb]; rfl

/-- The packed scan is the order of the lists of bytes. -/
theorem compare_eq_octets (a b : ByteArray) :
    compare a b = Ord.compare (octets a) (octets b) := by
  simpa [compare] using compareFrom_eq_drop a b 0

end Octets

instance instOrdBytes : Ord ByteArray := ⟨Octets.compare⟩

instance instDecidableEqBytes : DecidableEq ByteArray := ByteArray.decEq

end TripleStore
