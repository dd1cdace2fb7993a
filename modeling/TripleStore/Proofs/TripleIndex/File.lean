import TripleStore.Proofs.Container.RoundTrip
import TripleStore.Proofs.TripleIndex.Answers

/-!
# Reading an index file back

An index file has four sections: keys, first rows, rows and rows by value (`indexSections`). A file
with the sections of groups opens as an index that holds these groups (`holds_of_sections`).
-/

namespace TripleStore

/-! ## Sections -/

/-- The bytes of an id. -/
def idBytes (w : Width) (id : UInt64) : List UInt8 := digits w.bytes id.toNat

/-- The bytes of a pair of ids. -/
def pairBytes (w : Width) (p : Pair) : List UInt8 := idBytes w p.1 ++ idBytes w p.2

@[simp] theorem length_idBytes (w : Width) (id : UInt64) : (idBytes w id).length = w.bytes :=
  length_digits _ _

@[simp] theorem length_pairBytes (w : Width) (p : Pair) :
    (pairBytes w p).length = 2 * w.bytes := by
  simp [pairBytes]
  omega

/-- The first row of each group, and the number of rows. -/
def rowStarts (groups : List KeyGroup) : List Nat :=
  (List.range (groups.length + 1)).map (rowsBefore groups)

/-- The sections of an index file. -/
def indexSections (idWidth rowWidth : Width) (groups : List KeyGroup) : List SectionContent :=
  [(.keys, (groups.map KeyGroup.key).flatMap (idBytes idWidth)),
    (.offsets, (rowStarts groups).flatMap (digits rowWidth.bytes)),
    (.rows, (groups.flatMap KeyGroup.rows).flatMap (pairBytes idWidth)),
    (.byValue, (groups.flatMap KeyGroup.byValue).flatMap (pairBytes idWidth))]

/-- Groups have rows as soon as there are any. -/
theorem Grouped.length_eq_zero_iff {groups : List KeyGroup} (h : Grouped groups) :
    groups.length = 0 ↔ (groups.flatMap KeyGroup.rows).length = 0 := by
  rw [List.length_eq_zero_iff, List.length_eq_zero_iff, List.flatMap_eq_nil_iff]
  constructor
  · rintro rfl
    simp
  · intro hall
    exact List.eq_nil_iff_forall_not_mem.2 fun g hmem => h.nonempty g hmem (hall g hmem)

/-- All ids of groups fit a width. -/
def IdsFit (w : Width) (groups : List KeyGroup) : Prop :=
  ∀ g ∈ groups, g.key.toNat < w.limit ∧
    ∀ p ∈ g.rows, p.1.toNat < w.limit ∧ p.2.toNat < w.limit

theorem IdsFit.rows {w : Width} {groups : List KeyGroup} (h : IdsFit w groups) :
    ∀ p ∈ groups.flatMap KeyGroup.rows, p.1.toNat < w.limit ∧ p.2.toNat < w.limit := by
  intro p hp
  obtain ⟨g, hg, hp⟩ := List.mem_flatMap.1 hp
  exact (h g hg).2 p hp

theorem IdsFit.byValue {w : Width} {groups : List KeyGroup} (h : IdsFit w groups) :
    ∀ p ∈ groups.flatMap KeyGroup.byValue, p.1.toNat < w.limit ∧ p.2.toNat < w.limit := by
  intro p hp
  obtain ⟨g, hg, hp⟩ := List.mem_flatMap.1 hp
  obtain ⟨q, hq, rfl⟩ := List.mem_map.1 (g.byValue_perm.mem_iff.1 hp)
  exact ((h g hg).2 q hq).symm

namespace TripleIndex

variable {x : TripleIndex} {groups : List KeyGroup} {part : Section} {l : List Pair} {w : Width}
  {i : Nat}

theorem value_of_hasBytes (hw : x.table.valueWidth = some w) {n : Nat}
    (hb : HasBytes x.data i (digits w.bytes n)) (hn : n < w.limit) :
    x.table.value x.data i = .ok n := by
  rw [OffsetTable.value, hw]
  exact bind_eq_ok.2 ⟨w, rfl, bind_eq_ok.2 ⟨(), require_eq_ok.2 (stop_le_of_hasBytes hb),
    orFail_eq_ok.2 (readUInt?_of_hasBytes hb hn)⟩⟩

/-- A section of pairs is read back. -/
theorem reads_of_hasBytes (hw : x.table.valueWidth = some x.width)
    (hb : HasBytes x.data part.start (l.flatMap (pairBytes x.width)))
    (hl : ∀ p ∈ l, p.1.toNat < x.width.limit ∧ p.2.toNat < x.width.limit) :
    x.Reads part l := by
  intro r hr
  have hpair := hasBytes_of_flatMap (length_pairBytes x.width) hb hr
  obtain ⟨ha, hb⟩ := hasBytes_append.1 hpair
  obtain ⟨hfit, hfit'⟩ := hl _ (List.getElem_mem hr)
  rw [length_idBytes] at hb
  rw [pairAt]
  refine bind_eq_ok.2 ⟨_, value_of_hasBytes hw ha hfit,
    bind_eq_ok.2 ⟨_, value_of_hasBytes hw hb hfit', ?_⟩⟩
  simp only [UInt64.ofNat_toNat]
  rfl

@[simp] theorem length_rowStarts (groups : List KeyGroup) :
    (rowStarts groups).length = groups.length + 1 := by
  simp [rowStarts]

theorem getElem?_rowStarts (hi : i ≤ groups.length) :
    (rowStarts groups)[i]? = some (rowsBefore groups i) := by
  simp [rowStarts, Nat.lt_succ_of_le hi]

/-- What the header of an index file says. -/
structure Describes (h : Header) (order : RoleOrder) (idWidth rowWidth : Width)
    (groups : List KeyGroup) : Prop where
  flags : h.flags = order.tag
  count : h.count.toNat = (groups.flatMap KeyGroup.rows).length
  offsetWidth : h.offsetWidth = rowWidth.toByte
  valueWidth : h.valueWidth = idWidth.toByte

theorem valueWidth_of_describes {l : Layout} {order : RoleOrder} {idWidth rowWidth : Width}
    (h : Describes l.header order idWidth rowWidth groups) : l.valueWidth = .ok (some idWidth) := by
  have hne : ¬ idWidth.toByte = 0 := by cases idWidth <;> decide
  rw [Layout.valueWidth, h.valueWidth, if_neg hne, Width.ofByte?_toByte]
  rfl

/-- **The sections of groups open as an index that holds the groups.** -/
theorem holds_of_sections {data : ByteArray} {l : Layout} {order : RoleOrder}
    {idWidth rowWidth : Width} (hparse : Layout.parse data Header.indexMagic = .ok l)
    (htoc : l.toc = tocFrom Header.size (indexSections idWidth rowWidth groups))
    (hbody : HasBytes data Header.size (contentBytes (indexSections idWidth rowWidth groups)))
    (hd : Describes l.header order idWidth rowWidth groups) (hg : Grouped groups)
    (hids : IdsFit idWidth groups)
    (hrows : (groups.flatMap KeyGroup.rows).length < rowWidth.limit)
    (hsize : data.size < limit64) :
    ∃ x, ofBytes data = .ok x ∧ x.data = data ∧ x.layout = l ∧ x.order = order ∧
      x.Holds groups := by
  obtain ⟨keys, hkeys, hkeysLength, hkeysBytes⟩ :=
    Assembly.find_of_hasBytes htoc hbody .keys rfl
  obtain ⟨offsets, hoffsets, hoffsetsLength, hoffsetsBytes⟩ :=
    Assembly.find_of_hasBytes htoc hbody .offsets rfl
  obtain ⟨rows, hrowSection, hrowsLength, hrowsBytes⟩ :=
    Assembly.find_of_hasBytes htoc hbody .rows rfl
  obtain ⟨byValue, hbyValue, hbyValueLength, hbyValueBytes⟩ :=
    Assembly.find_of_hasBytes htoc hbody .byValue rfl
  have hrowsSize := hrowsBytes.length_le_size
  rw [length_flatMap_of_length (length_idBytes idWidth), List.length_map] at hkeysLength
  rw [← hrowsLength] at hrowsSize
  rw [length_flatMap_of_length (length_pairBytes idWidth)] at hrowsLength hbyValueLength
  rw [length_flatMap_part KeyGroup.length_byValue] at hbyValueLength
  have hwidth := valueWidth_of_describes hd
  have hkeyCount : keys.length / idWidth.bytes = groups.length := by
    rw [hkeysLength, Nat.mul_div_cancel _ idWidth.bytes_pos]
  have hstarts : ∀ p ∈ rowStarts groups, p < rowWidth.limit := fun p hp => by
    obtain ⟨i, -, rfl⟩ := List.mem_map.1 hp
    exact Nat.lt_of_le_of_lt (rowsBefore_le groups i) hrows
  obtain ⟨htable, hoffset⟩ := Layout.offsetTable_of_hasBytes hoffsets (length_rowStarts groups)
    hoffsetsLength hoffsetsBytes hd.offsetWidth hwidth hstarts hsize
  let x : TripleIndex := ⟨data, l, order,
    ⟨offsets.start, groups.length + 1, rowWidth, some idWidth⟩, idWidth, keys, rows, byValue⟩
  refine ⟨x, ?_, rfl, rfl, rfl, ?_⟩
  · rw [ofBytes]
    refine bind_eq_ok.2 ⟨l, hparse, bind_eq_ok.2 ⟨order, ?_, ?_⟩⟩
    · rw [hd.flags, RoleOrder.ofTag?_tag]
      rfl
    refine bind_eq_ok.2 ⟨_, hwidth, bind_eq_ok.2 ⟨idWidth, rfl, ?_⟩⟩
    refine bind_eq_ok.2 ⟨_, hkeys, bind_eq_ok.2 ⟨_, hrowSection, bind_eq_ok.2 ⟨_, hbyValue, ?_⟩⟩⟩
    refine bind_eq_ok.2 ⟨(), require_eq_ok.2 ?_, bind_eq_ok.2 ⟨(), require_eq_ok.2 ?_, ?_⟩⟩
    · rw [hkeysLength, Nat.mul_mod_left]
    · rw [hd.count]
      omega
    refine bind_eq_ok.2 ⟨(), require_eq_ok.2 ?_, bind_eq_ok.2 ⟨(), require_eq_ok.2 ?_, ?_⟩⟩
    · rw [hd.count]
      exact ⟨hrowsLength, hbyValueLength⟩
    · rw [hkeyCount, hd.count, hg.length_eq_zero_iff]
    · rw [hkeyCount]
      exact bind_eq_ok.2 ⟨_, htable, rfl⟩
  · have hvalue : x.table.valueWidth = some x.width := rfl
    refine ⟨hg, hd.count, hkeyCount, fun i hi => ?_, fun i hi => ?_,
      reads_of_hasBytes hvalue hrowsBytes hids.rows,
      reads_of_hasBytes hvalue hbyValueBytes hids.byValue⟩
    · have hkey := hasBytes_of_flatMap (length_idBytes idWidth) hkeysBytes (k := i)
        (by simpa using hi)
      rw [List.getElem_map] at hkey
      have hfit := (hids _ (List.getElem_mem hi)).1
      rw [keyAt, value_of_hasBytes hvalue hkey hfit]
      simp [Except.map]
    · exact hoffset i _ (getElem?_rowStarts hi)

end TripleIndex

end TripleStore
