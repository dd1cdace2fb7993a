import TripleStore.Dictionary
import TripleStore.TripleIndex
import TripleStore.Proofs.Container.RoundTrip
import TripleStore.Proofs.Outcome

/-!
# What an opened file is known to hold

A file that opens has passed a few checks of sizes. Its sections lie between the header and the
footer (`Layout.Sound`), the offset table fills its section (`Layout.offsetTable_eq_ok`) and so
answers each of its positions (`OffsetTable.contained_offset`), and each reader has the sections it
needs, with the lengths that its header implies (`Dictionary.Opened`, `TripleIndex.Opened`). Nothing
is known about what the sections hold.
-/

namespace TripleStore

/-! ## Sections -/

/-- The bytes from `start` up to `stop` lie between the header and the footer of a file. -/
structure InBody (data : ByteArray) (start stop : Nat) : Prop where
  start_ge : Header.size ≤ start
  start_le : start ≤ stop
  stop_le : stop + Footer.size ≤ data.size

/-- An entry of an array in a file. -/
theorem InBody.entry {data : ByteArray} {start n m i : Nat} (h : InBody data start (start + n * m))
    (hi : i < n) : InBody data (start + i * m) (start + i * m + m) := by
  have hentry : (i + 1) * m ≤ n * m := Nat.mul_le_mul_right m hi
  rw [Nat.succ_mul] at hentry
  have hstart := h.start_ge
  have hstop := h.stop_le
  exact ⟨by omega, Nat.le_add_right _ _, by omega⟩

/-- An array in a file has no more entries than the file has bytes. -/
theorem InBody.count_lt {data : ByteArray} {start n m : Nat} (h : InBody data start (start + n * m))
    (hm : 0 < m) (hsize : data.size < limit64) : n + 1 < limit64 := by
  have hbytes : n * 1 ≤ n * m := Nat.mul_le_mul_left n hm
  have hstop := h.stop_le
  simp only [Footer.size] at hstop
  omega

/-- The sections of a file lie between its header and its footer. -/
structure Layout.Sound (l : Layout) (data : ByteArray) : Prop where
  size : Header.size + Footer.size ≤ data.size
  sections : ∀ e ∈ l.toc, InBody data e.span.start e.span.stop

namespace Layout

variable {l : Layout} {data : ByteArray} {magic : UInt32} {kind : SectionKind} {span : Section}
  {n : Nat} {t : OffsetTable}

theorem sound_of_parse (h : parse data magic = .ok l) : l.Sound data := by
  obtain ⟨-, -, -, ⟨hsize, -⟩, ⟨-, htoc⟩, -, hspans, -⟩ := parse_eq_ok.1 h
  refine ⟨hsize, fun e he => ?_⟩
  obtain ⟨hstart, hfits⟩ := hspans e he
  have hstop : e.span.stop ≤ l.header.tocStart.toNat := of_decide_eq_true hfits
  exact ⟨hstart, Nat.le_add_right _ _, by omega⟩

/-- A section that is found is one of the table of contents. -/
theorem Sound.find (h : l.Sound data) (hfind : l.find kind = .ok span) :
    InBody data span.start span.stop := by
  rw [Layout.find, orFail_eq_ok, find?, Option.map_eq_some_iff] at hfind
  obtain ⟨e, he, rfl⟩ := hfind
  exact h.sections e (List.mem_of_find?_eq_some he)

/-- **An offset table that opens fills its section.** -/
theorem offsetTable_eq_ok : l.offsetTable n = .ok t ↔
    ∃ span width value, l.find .offsets = .ok span ∧ l.offsetWidth = .ok width ∧
      n * width.bytes < limit64 ∧ span.length = n * width.bytes ∧ l.valueWidth = .ok value ∧
      t = ⟨span.start, n, width, value⟩ := by
  simp only [offsetTable, bind_eq_ok, require_eq_ok]
  constructor
  · rintro ⟨span, hspan, width, hwidth, _, hneed, _, hlength, value, hvalue, h⟩
    exact ⟨span, width, value, hspan, hwidth, hneed, hlength, hvalue, (Except.ok.inj h).symm⟩
  · rintro ⟨span, width, value, hspan, hwidth, hneed, hlength, hvalue, rfl⟩
    exact ⟨span, hspan, width, hwidth, (), hneed, (), hlength, value, hvalue, rfl⟩

theorem Sound.offsetTable (h : l.Sound data) (ht : l.offsetTable n = .ok t) :
    InBody data t.start (t.start + t.count * t.width.bytes) ∧ t.count = n ∧
      l.valueWidth = .ok t.valueWidth := by
  obtain ⟨span, width, value, hspan, -, -, hlength, hvalue, rfl⟩ := offsetTable_eq_ok.1 ht
  have hbody := h.find hspan
  rw [Section.stop, hlength] at hbody
  exact ⟨hbody, rfl, hvalue⟩

/-- The checksums of a file are right, or one of them is reported. -/
theorem contained_verify (l : Layout) (data : ByteArray) : Contained (l.verify data) := by
  refine (Contained.forM fun e _ => .require _ rfl).bind fun _ _ => ?_
  exact (Contained.orFail _ rfl).bind fun _ _ => .require _ rfl

end Layout

namespace OffsetTable

variable {t : OffsetTable} {data : ByteArray}

/-- **A table inside a file answers each of its positions.** -/
theorem contained_offset (h : InBody data t.start (t.start + t.count * t.width.bytes))
    (hsize : data.size < limit64) {i : Nat} (hi : i < t.count) : Contained (t.offset data i) := by
  have hstop := (h.entry hi).stop_le
  exact .of_exists ⟨_, bind_eq_ok.2 ⟨(), require_eq_ok.2 hi, bind_eq_ok.2
    ⟨(), require_eq_ok.2 (by omega), orFail_eq_ok.2 (if_pos (by omega))⟩⟩⟩

/-- A value inside a file is answered. -/
theorem value_eq_ok {w : Width} {position : Nat} (hw : t.valueWidth = some w)
    (h : position + w.bytes ≤ data.size) :
    t.value data position = .ok (readDigits data position w.bytes) :=
  bind_eq_ok.2 ⟨w, orFail_eq_ok.2 hw, bind_eq_ok.2 ⟨(), require_eq_ok.2 h,
    orFail_eq_ok.2 (if_pos h)⟩⟩

end OffsetTable

/-! ## Dictionaries -/

/-- What is known of a dictionary that was opened. -/
structure Dictionary.Opened (d : Dictionary) : Prop where
  sound : d.layout.Sound d.data
  table : InBody d.data d.offsets.start
    (d.offsets.start + d.offsets.count * d.offsets.width.bytes)
  table_count : d.offsets.count = d.count + 1
  strings : InBody d.data d.strings.start d.strings.stop

theorem Dictionary.opened_of_ofBytes {data : ByteArray} {d : Dictionary}
    (h : ofBytes data = .ok d) : d.data = data ∧ d.Opened := by
  obtain ⟨layout, hparse, h₁⟩ := bind_eq_ok.1 h
  obtain ⟨_, -, h₂⟩ := bind_eq_ok.1 h₁
  obtain ⟨offsets, htable, h₃⟩ := bind_eq_ok.1 h₂
  obtain ⟨strings, hstrings, h₄⟩ := bind_eq_ok.1 h₃
  obtain rfl := Except.ok.inj h₄
  have hsound := Layout.sound_of_parse hparse
  obtain ⟨hbody, hcount, -⟩ := hsound.offsetTable htable
  exact ⟨rfl, hsound, hbody, hcount, hsound.find hstrings⟩

/-! ## Indices -/

/-- One of the two sections that hold the rows of an index. -/
def TripleIndex.HoldsRows (x : TripleIndex) (part : Section) : Prop :=
  part = x.rowSection ∨ part = x.valueSection

theorem TripleIndex.holdsRows_rowSection (x : TripleIndex) : x.HoldsRows x.rowSection := .inl rfl

theorem TripleIndex.holdsRows_valueSection (x : TripleIndex) : x.HoldsRows x.valueSection :=
  .inr rfl

/-- What is known of an index that was opened. -/
structure TripleIndex.Opened (x : TripleIndex) : Prop where
  sound : x.layout.Sound x.data
  table : InBody x.data x.table.start (x.table.start + x.table.count * x.table.width.bytes)
  table_count : x.table.count = x.keyCount + 1
  /-- The ids of the file have a width. -/
  table_valueWidth : x.table.valueWidth = some x.width
  keys : InBody x.data x.keySection.start (x.keySection.start + x.keyCount * x.width.bytes)
  rows : ∀ part, x.HoldsRows part →
    InBody x.data part.start (part.start + x.count * (2 * x.width.bytes))

theorem TripleIndex.opened_of_ofBytes {data : ByteArray} {x : TripleIndex}
    (h : ofBytes data = .ok x) : x.data = data ∧ x.Opened := by
  obtain ⟨layout, hparse, h₁⟩ := bind_eq_ok.1 h
  obtain ⟨order, -, h₂⟩ := bind_eq_ok.1 h₁
  obtain ⟨value, hvalue, h₃⟩ := bind_eq_ok.1 h₂
  obtain ⟨width, hwidth, h₄⟩ := bind_eq_ok.1 h₃
  obtain ⟨keys, hkeys, h₅⟩ := bind_eq_ok.1 h₄
  obtain ⟨rows, hrows, h₆⟩ := bind_eq_ok.1 h₅
  obtain ⟨byValue, hbyValue, h₇⟩ := bind_eq_ok.1 h₆
  obtain ⟨_, hragged, h₈⟩ := bind_eq_ok.1 h₇
  obtain ⟨_, -, h₉⟩ := bind_eq_ok.1 h₈
  obtain ⟨_, hlengths, h₁₀⟩ := bind_eq_ok.1 h₉
  obtain ⟨_, -, h₁₁⟩ := bind_eq_ok.1 h₁₀
  obtain ⟨table, htable, h₁₂⟩ := bind_eq_ok.1 h₁₁
  obtain rfl := Except.ok.inj h₁₂
  rw [require_eq_ok] at hragged hlengths
  rw [orFail_eq_ok] at hwidth
  have hsound := Layout.sound_of_parse hparse
  obtain ⟨hbody, hcount, htableValue⟩ := hsound.offsetTable htable
  have hkeysBody := hsound.find hkeys
  have hrowsBody := hsound.find hrows
  have hbyValueBody := hsound.find hbyValue
  rw [Section.stop] at hkeysBody hrowsBody hbyValueBody
  rw [hlengths.1] at hrowsBody
  rw [hlengths.2] at hbyValueBody
  have hvalueWidth : table.valueWidth = some width := by
    rw [hvalue] at htableValue
    rw [← Except.ok.inj htableValue, hwidth]
  refine ⟨rfl, hsound, hbody, hcount, hvalueWidth, ?_, ?_⟩
  · change InBody data keys.start (keys.start + keys.length / width.bytes * width.bytes)
    rwa [Nat.div_mul_cancel (Nat.dvd_of_mod_eq_zero hragged)]
  · rintro part (hpart | hpart)
    · rw [hpart]
      exact hrowsBody
    · rw [hpart]
      exact hbyValueBody

end TripleStore
