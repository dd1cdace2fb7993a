import Mathlib.Data.List.Perm.Basic
import TripleStore.Proofs.Sorter.Order
import TripleStore.TripleIndex

/-!
# Rows by key

The rows of an index are the rows of its keys one after another (`expand`), and ascend
(`ascending_expand`). The same rows, each with value and sub key exchanged and sorted again, are
again the rows of the same keys, as many of each (`sorted_turned`).
-/

namespace TripleStore

/-! ## Orders -/

theorem isLE_compare_row {a b : Row} : (compare a b).isLE ↔ a.key < b.key ∨ a.key = b.key ∧
    (a.subKey < b.subKey ∨ a.subKey = b.subKey ∧ a.value ≤ b.value) := by
  change (Row.compare a b).isLE ↔ _
  simp only [Row.compare, Ordering.isLE_then_iff_or, Std.compare_eq_lt,
    Std.LawfulEqOrd.compare_eq_iff_eq, Std.isLE_compare]

namespace Pair

variable {a b c : Pair} {l : List Pair} {key : UInt64}

theorem lt_eq_false : lt b a = false ↔ a.1 < b.1 ∨ a.1 = b.1 ∧ a.2 ≤ b.2 := by
  simp only [lt, Bool.or_eq_false_iff, Bool.and_eq_false_iff, decide_eq_false_iff_not,
    beq_eq_false_iff_ne, ne_eq, UInt64.lt_iff_toNat_lt, UInt64.le_iff_toNat_le,
    ← UInt64.toNat_inj]
  omega

/-- The row of a pair under a key. -/
def row (key : UInt64) (p : Pair) : Row := ⟨key, p.1, p.2⟩

/-- The pair of a row. -/
def ofRow (r : Row) : Pair := (r.subKey, r.value)

/-- The pairs ascend, duplicates allowed. -/
def Ascending (l : List Pair) : Prop := l.Pairwise fun a b => lt b a = false

theorem isLE_compare_row : (compare (row key a) (row key b)).isLE ↔ lt b a = false := by
  rw [TripleStore.isLE_compare_row, lt_eq_false]
  simp [row]

/-- Pairs ascend as the rows of one key do. -/
theorem ascending_map_row : TripleStore.Ascending (l.map (row key)) ↔ Ascending l := by
  simp only [TripleStore.Ascending, Ascending, List.pairwise_map, isLE_compare_row]

theorem map_row_ofRow {rows : List Row} (h : ∀ r ∈ rows, r.key = key) :
    (rows.map ofRow).map (row key) = rows := by
  rw [List.map_map]
  refine (List.map_congr_left fun r hr => ?_).trans (List.map_id rows)
  rw [Function.comp_apply, row, ofRow, ← h r hr]
  rfl

end Pair

/-- The row with value and sub key exchanged. -/
def Row.turned (r : Row) : Row := ⟨r.key, r.value, r.subKey⟩

/-! ## Groups -/

/-- The pairs (sub key, value) of a key. -/
structure KeyGroup where
  key : UInt64
  rows : List Pair

namespace KeyGroup

/-- The pairs (value, sub key) of a key, in order. -/
def byValue (g : KeyGroup) : List Pair :=
  (Sorter.sorted (g.rows.map fun p => Pair.row g.key p.swap)).map Pair.ofRow

@[simp] theorem length_byValue (g : KeyGroup) : g.byValue.length = g.rows.length := by
  simp [byValue]

theorem map_row_byValue (g : KeyGroup) : g.byValue.map (Pair.row g.key) =
    Sorter.sorted (g.rows.map fun p => Pair.row g.key p.swap) := by
  refine Pair.map_row_ofRow fun r hr => ?_
  obtain ⟨p, -, rfl⟩ := List.mem_map.1 (Sorter.mem_sorted.1 hr)
  rfl

theorem ascending_byValue (g : KeyGroup) : Pair.Ascending g.byValue := by
  have h := Sorter.ascending_sorted (g.rows.map fun p => Pair.row g.key p.swap)
  rw [← map_row_byValue] at h
  exact Pair.ascending_map_row.1 h

theorem byValue_perm (g : KeyGroup) : g.byValue.Perm (g.rows.map Prod.swap) := by
  have h := (Sorter.sorted_perm (g.rows.map fun p => Pair.row g.key p.swap)).map Pair.ofRow
  rw [List.map_map] at h
  exact h

end KeyGroup

/-- Keys in order, each with at least one row, and its rows in order. -/
structure Grouped (groups : List KeyGroup) : Prop where
  nonempty : ∀ g ∈ groups, g.rows ≠ []
  ascending : ∀ g ∈ groups, Pair.Ascending g.rows
  keys : groups.Pairwise fun a b => a.key < b.key

/-- The rows of all keys, one key after another. -/
def expand (part : KeyGroup → List Pair) (groups : List KeyGroup) : List Row :=
  groups.flatMap fun g => (part g).map (Pair.row g.key)

variable {groups : List KeyGroup} {part : KeyGroup → List Pair} {g : KeyGroup} {key : UInt64}

theorem expand_cons : expand part (g :: groups) =
    (part g).map (Pair.row g.key) ++ expand part groups := rfl

theorem expand_append (a b : List KeyGroup) :
    expand part (a ++ b) = expand part a ++ expand part b := List.flatMap_append

theorem mem_expand {r : Row} :
    r ∈ expand part groups ↔ ∃ g ∈ groups, r.key = g.key ∧ Pair.ofRow r ∈ part g := by
  simp only [expand, List.mem_flatMap, List.mem_map]
  constructor
  · rintro ⟨g, hg, p, hp, rfl⟩
    exact ⟨g, hg, rfl, hp⟩
  · rintro ⟨g, hg, hkey, hp⟩
    exact ⟨g, hg, _, hp, by rw [Pair.row, ← hkey]; rfl⟩

theorem Grouped.tail (h : Grouped (g :: groups)) : Grouped groups :=
  ⟨fun a ha => h.nonempty a (by simp [ha]), fun a ha => h.ascending a (by simp [ha]),
    (List.pairwise_cons.1 h.keys).2⟩

theorem Grouped.key_lt (h : Grouped groups) {i j : Nat} (hj : j < groups.length) (hij : i < j) :
    groups[i].key < groups[j].key :=
  List.pairwise_iff_getElem.1 h.keys i j (by omega) hj hij

/-- A group of a greater key is added. -/
theorem Grouped.append_key (h : Grouped groups) (hkey : ∀ g ∈ groups, g.key < key) (p : Pair) :
    Grouped (groups ++ [⟨key, [p]⟩]) := by
  refine ⟨fun g hg => ?_, fun g hg => ?_, ?_⟩
  · rcases List.mem_append.1 hg with hg | hg
    · exact h.nonempty g hg
    · simp [List.mem_singleton.1 hg]
  · rcases List.mem_append.1 hg with hg | hg
    · exact h.ascending g hg
    · rw [List.mem_singleton.1 hg]
      exact List.pairwise_singleton _ _
  · refine List.pairwise_append.2 ⟨h.keys, List.pairwise_singleton _ _, fun a ha b hb => ?_⟩
    rw [List.mem_singleton.1 hb]
    exact hkey a ha

/-- A row is added to the last group. -/
theorem Grouped.append_row {init : List KeyGroup} (h : Grouped (init ++ [g])) {p : Pair}
    (hp : ∀ q ∈ g.rows, Pair.lt p q = false) : Grouped (init ++ [⟨g.key, g.rows ++ [p]⟩]) := by
  have hkeys := List.pairwise_append.1 h.keys
  refine ⟨fun a ha => ?_, fun a ha => ?_, ?_⟩
  · rcases List.mem_append.1 ha with ha | ha
    · exact h.nonempty a (by simp [ha])
    · simp [List.mem_singleton.1 ha]
  · rcases List.mem_append.1 ha with ha | ha
    · exact h.ascending a (by simp [ha])
    · rw [List.mem_singleton.1 ha]
      refine List.pairwise_append.2 ⟨h.ascending g (by simp), List.pairwise_singleton _ _,
        fun q hq b hb => ?_⟩
      rw [List.mem_singleton.1 hb]
      exact hp q hq
  · refine List.pairwise_append.2 ⟨hkeys.1, List.pairwise_singleton _ _, fun a ha b hb => ?_⟩
    rw [List.mem_singleton.1 hb]
    exact hkeys.2.2 a ha g (by simp)

/-- Rows of ascending keys ascend if those of each key do. -/
theorem ascending_expand (hpart : ∀ g ∈ groups, Pair.Ascending (part g))
    (hkeys : groups.Pairwise fun a b => a.key < b.key) : Ascending (expand part groups) := by
  induction groups with
  | nil => exact List.Pairwise.nil
  | cons g groups ih =>
    obtain ⟨hg, hkeys⟩ := List.pairwise_cons.1 hkeys
    rw [expand_cons]
    refine List.pairwise_append.2 ⟨Pair.ascending_map_row.2 (hpart g (by simp)),
      ih (fun a ha => hpart a (by simp [ha])) hkeys, fun a ha b hb => ?_⟩
    obtain ⟨p, -, rfl⟩ := List.mem_map.1 ha
    obtain ⟨g', hg', hkey, -⟩ := mem_expand.1 hb
    rw [isLE_compare_row, hkey]
    exact .inl (hg g' hg')

/-- **Sorted by value, the rows are again those of the same keys.** -/
theorem sorted_turned (h : Grouped groups) :
    Sorter.sorted ((expand KeyGroup.rows groups).map Row.turned) =
      expand KeyGroup.byValue groups := by
  refine eq_of_perm_of_ascending (Sorter.ascending_sorted _)
    (ascending_expand (fun g _ => g.ascending_byValue) h.keys) ((Sorter.sorted_perm _).trans ?_)
  have hturned : (expand KeyGroup.rows groups).map Row.turned =
      groups.flatMap fun g => (g.rows.map Prod.swap).map (Pair.row g.key) := by
    simp only [expand, List.map_flatMap, List.map_map]
    rfl
  rw [hturned]
  exact List.Perm.flatMap_left _ fun g _ => (g.byValue_perm.map _).symm

theorem map_ofRow_expand (part : KeyGroup → List Pair) (groups : List KeyGroup) :
    (expand part groups).map Pair.ofRow = groups.flatMap part := by
  simp only [expand, List.map_flatMap, List.map_map]
  refine List.flatMap_congr fun g _ => ?_
  exact List.map_id _

/-! ## Groups by value -/

/-- The group with the pairs by value in place of the rows. -/
def KeyGroup.turned (g : KeyGroup) : KeyGroup := ⟨g.key, g.byValue⟩

theorem flatMap_rows_turned (groups : List KeyGroup) :
    (groups.map KeyGroup.turned).flatMap KeyGroup.rows = groups.flatMap KeyGroup.byValue :=
  List.flatMap_map ..

theorem expand_turned (groups : List KeyGroup) :
    expand KeyGroup.rows (groups.map KeyGroup.turned) = expand KeyGroup.byValue groups :=
  List.flatMap_map ..

theorem Grouped.turned (h : Grouped groups) : Grouped (groups.map KeyGroup.turned) := by
  refine ⟨fun a ha => ?_, fun a ha => ?_, List.pairwise_map.2 h.keys⟩
  · obtain ⟨g, hg, rfl⟩ := List.mem_map.1 ha
    have hlength : g.byValue.length ≠ 0 := by simp [h.nonempty g hg]
    exact List.length_pos_iff.1 (Nat.pos_of_ne_zero hlength)
  · obtain ⟨g, -, rfl⟩ := List.mem_map.1 ha
    exact g.ascending_byValue

/-! ## The pairs of a key -/

/-- The pairs of the rows that have a key. -/
def pairsOf (part : KeyGroup → List Pair) (groups : List KeyGroup) (key : UInt64) : List Pair :=
  ((expand part groups).filter (·.key == key)).map Pair.ofRow

theorem pairsOf_of_ne (h : ∀ g ∈ groups, g.key ≠ key) : pairsOf part groups key = [] := by
  rw [pairsOf, List.map_eq_nil_iff, List.filter_eq_nil_iff]
  intro r hr
  obtain ⟨g, hg, hkey, -⟩ := mem_expand.1 hr
  simpa [hkey] using h g hg

theorem filter_map_row (l : List Pair) (a : UInt64) :
    (l.map (Pair.row a)).filter (·.key == key) = if a = key then l.map (Pair.row a) else [] := by
  have hkey : ∀ r ∈ l.map (Pair.row a), r.key = a := fun r hr => by
    obtain ⟨p, -, rfl⟩ := List.mem_map.1 hr
    rfl
  split
  · rename_i h
    exact List.filter_eq_self.2 fun r hr => by simp [hkey r hr, h]
  · rename_i h
    exact List.filter_eq_nil_iff.2 fun r hr => by simp [hkey r hr, h]

/-- **The rows that have a key are those of its group.** -/
theorem pairsOf_of_mem (h : Grouped groups) (hg : g ∈ groups) :
    pairsOf part groups g.key = part g := by
  induction groups with
  | nil => cases hg
  | cons a groups ih =>
    have hlt := (List.pairwise_cons.1 h.keys).1
    rw [pairsOf, expand_cons, List.filter_append, List.map_append, filter_map_row]
    change _ ++ pairsOf part groups g.key = _
    rcases List.mem_cons.1 hg with rfl | hg
    · rw [if_pos rfl, pairsOf_of_ne fun b hb => (UInt64.ne_of_lt (hlt b hb)).symm, List.append_nil,
        List.map_map]
      exact List.map_id _
    · rw [if_neg (UInt64.ne_of_lt (hlt g hg)), ih h.tail hg]
      rfl

theorem mem_pairsOf {row : Row} :
    Pair.ofRow row ∈ pairsOf part groups row.key ↔ row ∈ expand part groups := by
  simp only [pairsOf, List.mem_map, List.mem_filter, beq_iff_eq]
  constructor
  · rintro ⟨r, ⟨hr, hkey⟩, hpair⟩
    obtain ⟨hsub, hvalue⟩ := Prod.mk.inj hpair
    obtain rfl : r = row := by
      cases r
      cases row
      simp_all
    exact hr
  · intro h
    exact ⟨row, ⟨h, rfl⟩, rfl⟩

/-! ## Positions -/

/-- Number of rows before group number `i`. -/
def rowsBefore (groups : List KeyGroup) (i : Nat) : Nat :=
  ((groups.take i).flatMap KeyGroup.rows).length

theorem rowsBefore_length (groups : List KeyGroup) :
    rowsBefore groups groups.length = (groups.flatMap KeyGroup.rows).length := by
  rw [rowsBefore, List.take_length]

theorem rowsBefore_cons_succ (g : KeyGroup) (groups : List KeyGroup) (i : Nat) :
    rowsBefore (g :: groups) (i + 1) = g.rows.length + rowsBefore groups i := by
  rw [rowsBefore, List.take_succ_cons, List.flatMap_cons, List.length_append, rowsBefore]

theorem rowsBefore_succ {i : Nat} (hi : i < groups.length) :
    rowsBefore groups (i + 1) = rowsBefore groups i + groups[i].rows.length := by
  rw [rowsBefore, List.take_succ_eq_append_getElem hi, List.flatMap_append, List.length_append,
    List.flatMap_singleton]
  rfl

/-- There are no more groups than rows. -/
theorem Grouped.length_le (h : Grouped groups) :
    groups.length ≤ (groups.flatMap KeyGroup.rows).length := by
  suffices hprefix : ∀ i ≤ groups.length, i ≤ rowsBefore groups i from
    rowsBefore_length groups ▸ hprefix _ (Nat.le_refl _)
  intro i hi
  induction i with
  | zero => exact Nat.zero_le _
  | succ i ih =>
    have hi : i < groups.length := hi
    have hpos := List.length_pos_iff.2 (h.nonempty _ (List.getElem_mem hi))
    have hbefore := ih (Nat.le_of_lt hi)
    rw [rowsBefore_succ hi]
    omega

theorem rowsBefore_append {a : List KeyGroup} (b : List KeyGroup) {i : Nat} (hi : i ≤ a.length) :
    rowsBefore (a ++ b) i = rowsBefore a i := by
  rw [rowsBefore, List.take_append_of_le_length hi]
  rfl

theorem length_flatMap_part (hpart : ∀ g : KeyGroup, (part g).length = g.rows.length)
    (groups : List KeyGroup) :
    (groups.flatMap part).length = (groups.flatMap KeyGroup.rows).length := by
  simp only [List.length_flatMap, hpart]

theorem rowsBefore_turned (groups : List KeyGroup) (i : Nat) :
    rowsBefore (groups.map KeyGroup.turned) i = rowsBefore groups i := by
  rw [rowsBefore, ← List.map_take, flatMap_rows_turned,
    length_flatMap_part KeyGroup.length_byValue, rowsBefore]

theorem rowsBefore_le (groups : List KeyGroup) (i : Nat) :
    rowsBefore groups i ≤ (groups.flatMap KeyGroup.rows).length := by
  have hsplit : groups.flatMap KeyGroup.rows =
      (groups.take i).flatMap KeyGroup.rows ++ (groups.drop i).flatMap KeyGroup.rows := by
    rw [← List.flatMap_append, List.take_append_drop]
  rw [rowsBefore, hsplit, List.length_append]
  omega

theorem rowsBefore_add_le {i : Nat} (hi : i < groups.length) :
    rowsBefore groups i + groups[i].rows.length ≤ (groups.flatMap KeyGroup.rows).length := by
  rw [← rowsBefore_succ hi]
  exact rowsBefore_le groups (i + 1)

/-- **Each group stands behind the rows before it.** -/
theorem drop_take_flatMap (hpart : ∀ g : KeyGroup, (part g).length = g.rows.length) {i : Nat}
    (hi : i < groups.length) :
    ((groups.flatMap part).drop (rowsBefore groups i)).take groups[i].rows.length =
      part groups[i] := by
  have hsplit : groups = groups.take i ++ groups[i] :: groups.drop (i + 1) := by
    rw [← List.drop_eq_getElem_cons hi, List.take_append_drop]
  have hlength : rowsBefore groups i = ((groups.take i).flatMap part).length :=
    (length_flatMap_part hpart _).symm
  rw [hlength]
  have hflat : groups.flatMap part = (groups.take i).flatMap part ++
      (part groups[i] ++ (groups.drop (i + 1)).flatMap part) := by
    conv_lhs => rw [hsplit]
    rw [List.flatMap_append, List.flatMap_cons]
  rw [hflat, List.drop_left, ← hpart, List.take_left]

end TripleStore
