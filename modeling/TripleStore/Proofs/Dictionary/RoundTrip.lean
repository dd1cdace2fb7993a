import Mathlib.Data.List.Basic
import Mathlib.Data.List.Flatten
import Mathlib.Data.List.Perm.Subperm
import TripleStore.Dictionary.Writer
import TripleStore.Proofs.Container.RoundTrip
import TripleStore.Proofs.Dictionary.Search
import TripleStore.Proofs.Sorter.Order

/-!
# Reading a dictionary file back

A dictionary holds strings if these ascend strictly and are what it reads at their numbers
(`Dictionary.Holds`). Then ids from 1 on are those of the strings, and a search finds a key exactly
if it is one of them (`find_of_holds`). What a writer of ascending strings writes opens as a
dictionary that holds them (`holds_of_fileOf`).
-/

namespace TripleStore

/-! ## Reads -/

namespace Dictionary

/-- A dictionary holds strings in strictly ascending order. -/
structure Holds (d : Dictionary) (strings : List ByteArray) : Prop where
  ascending : StrictlyAscending strings
  count : d.count = strings.length
  string : ∀ i (h : i < strings.length), d.string i = .ok strings[i]

variable {d : Dictionary} {strings : List ByteArray} {key : Key} {lo hi id : Nat}

/-- The strings have the ids from 1 on. -/
theorem get_of_holds (h : d.Holds strings) {i : Nat} (hi : i < strings.length) :
    d.get (i + 1) = .ok strings[i] := by
  rw [get]
  exact bind_eq_ok.2 ⟨(), require_eq_ok.2 ⟨by omega, by rw [h.count]; omega⟩, h.string i hi⟩

/-- No other id names a string. -/
theorem get_of_outside (h : d.Holds strings) (hid : id = 0 ∨ strings.length < id) :
    d.get id = .error (.outOfRange .termId id (strings.length + 1)) := by
  rw [get, h.count, require, if_neg (by omega)]
  rfl

/-- A search answers the id of a string, or 0 if it is none of them. -/
def Finds (strings : List ByteArray) (bytes : ByteArray) (found : Result Nat) : Prop :=
  (∃ i, ∃ h : i < strings.length, strings[i] = bytes ∧ found = .ok (i + 1)) ∨
    bytes ∉ strings ∧ found = .ok 0

/-- The search keeps all smaller strings before its range and all greater ones behind it. -/
theorem findBetween_of_holds (h : d.Holds strings) (hhi : hi ≤ strings.length)
    (hbefore : ∀ i (h : i < strings.length), i < lo → compare strings[i] key.bytes = .lt)
    (hbehind : ∀ i (h : i < strings.length), hi ≤ i → compare strings[i] key.bytes = .gt) :
    Finds strings key.bytes (d.findBetween key lo hi) := by
  have hlt := List.pairwise_iff_getElem.1 h.ascending
  fun_induction d.findBetween key lo hi with
  | case1 lo hi hlo mid e he =>
    rw [h.string mid (by omega)] at he
    cases he
  | case2 lo hi hlo mid stored hstored hcompare ih =>
    rw [h.string mid (by omega)] at hstored
    obtain rfl := Except.ok.inj hstored
    rw [Key.compareStored_eq] at hcompare
    refine ih hhi (fun i hi hmid => ?_) hbehind
    rcases Nat.lt_or_eq_of_le (Nat.le_of_lt_succ hmid) with hmid | rfl
    · exact Std.TransCmp.lt_trans (hlt i mid hi (by omega) hmid) hcompare
    · exact hcompare
  | case3 lo hi hlo mid stored hstored hcompare ih =>
    rw [h.string mid (by omega)] at hstored
    obtain rfl := Except.ok.inj hstored
    rw [Key.compareStored_eq] at hcompare
    refine ih (by omega) hbefore fun i hi hmid => ?_
    rcases Nat.lt_or_eq_of_le hmid with hmid | rfl
    · have hgreater : compare strings[mid] key.bytes = .gt := hcompare
      have hcompare := Std.OrientedCmp.gt_iff_lt.1 hgreater
      exact Std.OrientedCmp.gt_iff_lt.2
        (Std.TransCmp.lt_trans hcompare (hlt mid i (by omega) hi hmid))
    · exact hcompare
  | case4 lo hi hlo mid stored hstored hcompare =>
    rw [h.string mid (by omega)] at hstored
    obtain rfl := Except.ok.inj hstored
    rw [Key.compareStored_eq, Octets.compare_eq_iff] at hcompare
    exact .inl ⟨mid, by omega, hcompare, rfl⟩
  | case5 lo hi hlo =>
    refine .inr ⟨fun hmem => ?_, rfl⟩
    obtain ⟨i, hi, hbytes⟩ := List.getElem_of_mem hmem
    have hself : compare strings[i] key.bytes = .eq := by
      rw [hbytes]
      exact Std.ReflCmp.compare_self
    rcases Nat.lt_or_ge i lo with hilo | hilo
    · rw [hbefore i hi hilo] at hself
      cases hself
    · rw [hbehind i hi (by omega)] at hself
      cases hself

/-- The id of a string among strings, 0 if it is none of them. -/
def idIn (strings : List ByteArray) (bytes : ByteArray) : Nat :=
  match strings.findIdx? fun s => decide (s = bytes) with
  | some i => i + 1
  | none => 0

theorem idIn_getElem (h : StrictlyAscending strings) {i : Nat} (hi : i < strings.length) :
    idIn strings strings[i] = i + 1 := by
  have hfirst : strings.findIdx? (fun s => decide (s = strings[i])) = some i := by
    refine List.findIdx?_eq_some_iff_getElem.2 ⟨hi, by simp, fun j hj => ?_⟩
    have hlt := List.pairwise_iff_getElem.1 h j i (by omega) hi hj
    simpa using ne_of_compare_eq_lt hlt
  rw [idIn, hfirst]

theorem idIn_of_notMem {bytes : ByteArray} (h : bytes ∉ strings) : idIn strings bytes = 0 := by
  have hnone : strings.findIdx? (fun s => decide (s = bytes)) = none := by
    refine List.findIdx?_eq_none_iff.2 fun s hs => ?_
    have hne : s ≠ bytes := fun heq => h (heq ▸ hs)
    simpa using hne
  rw [idIn, hnone]

/-- **A search finds exactly the strings that a dictionary holds.** -/
theorem find_of_holds (h : d.Holds strings) (key : Key) :
    d.find key = .ok (idIn strings key.bytes) := by
  have hfinds : Finds strings key.bytes (d.find key) :=
    findBetween_of_holds h (Nat.le_of_eq h.count) (fun _ _ h => absurd h (Nat.not_lt_zero _))
      fun i hi hle => absurd hi (by rw [h.count] at hle; omega)
  rcases hfinds with ⟨i, hi, hkey, hfind⟩ | ⟨hnot, hfind⟩
  · rw [hfind, ← hkey, idIn_getElem h.ascending hi]
  · rw [hfind, idIn_of_notMem hnot]

end Dictionary

/-! ## Writing -/

/-- Number of bytes of the first `i` strings. -/
def bytesBefore (strings : List ByteArray) (i : Nat) : Nat :=
  ((strings.take i).flatMap octets).length

section

variable {strings : List ByteArray} {i : Nat}

theorem bytesBefore_length (strings : List ByteArray) :
    bytesBefore strings strings.length = (strings.flatMap octets).length := by
  rw [bytesBefore, List.take_length]

theorem bytesBefore_succ (hi : i < strings.length) :
    bytesBefore strings (i + 1) = bytesBefore strings i + strings[i].size := by
  rw [bytesBefore, List.take_succ_eq_append_getElem hi, List.flatMap_append, List.length_append,
    List.flatMap_singleton, length_octets]
  rfl

theorem bytesBefore_append {a : List ByteArray} (b : List ByteArray) (hi : i ≤ a.length) :
    bytesBefore (a ++ b) i = bytesBefore a i := by
  rw [bytesBefore, List.take_append_of_le_length hi]
  rfl

theorem bytesBefore_le (strings : List ByteArray) (i : Nat) :
    bytesBefore strings i ≤ (strings.flatMap octets).length := by
  have hsplit : strings.flatMap octets =
      (strings.take i).flatMap octets ++ (strings.drop i).flatMap octets := by
    rw [← List.flatMap_append, List.take_append_drop]
  rw [bytesBefore, hsplit, List.length_append]
  omega

/-- A string stands behind the strings before it. -/
theorem hasBytes_string {data : ByteArray} {start : Nat}
    (hb : HasBytes data start (strings.flatMap octets)) (hi : i < strings.length) :
    HasBytes data (start + bytesBefore strings i) (octets strings[i]) := by
  have hsplit : strings.flatMap octets = (strings.take i).flatMap octets ++
      (octets strings[i] ++ (strings.drop (i + 1)).flatMap octets) := by
    have : strings = strings.take i ++ strings[i] :: strings.drop (i + 1) := by
      rw [← List.drop_eq_getElem_cons hi, List.take_append_drop]
    conv_lhs => rw [this]
    rw [List.flatMap_append, List.flatMap_cons]
  rw [hsplit] at hb
  exact (hasBytes_append.1 (hasBytes_append.1 hb).2).1

/-- Where the strings start, and where the last one ends. -/
def stringStarts (strings : List ByteArray) : List Nat :=
  (List.range (strings.length + 1)).map (bytesBefore strings)

@[simp] theorem length_stringStarts (strings : List ByteArray) :
    (stringStarts strings).length = strings.length + 1 := by
  simp [stringStarts]

theorem getElem?_stringStarts (hi : i ≤ strings.length) :
    (stringStarts strings)[i]? = some (bytesBefore strings i) := by
  simp [stringStarts, Nat.lt_succ_of_le hi]

/-- The room for strings in a file: their bytes and, for each, a position in the widest width. -/
def Dictionary.room (strings : List ByteArray) : Nat :=
  (strings.flatMap octets).length + 8 * strings.length

theorem Dictionary.room_append (a b : List ByteArray) : room (a ++ b) = room a + room b := by
  simp only [room, List.flatMap_append, List.length_append]
  omega

theorem Dictionary.room_singleton (s : ByteArray) : room [s] = s.size + 8 := by
  simp [room]

/-- Some of the strings of a list, each once, need no more room than all of them. -/
theorem Dictionary.room_le_of_subset {all : List ByteArray} (hlt : StrictlyAscending strings)
    (h : ∀ s ∈ strings, s ∈ all) : room strings ≤ room all := by
  obtain ⟨chosen, hperm, hsublist⟩ := hlt.nodup.subperm h
  have hbytes := (hsublist.flatMap octets).length_le
  have hlength := hsublist.length_le
  rw [(hperm.flatMap_right octets).length_eq] at hbytes
  rw [hperm.length_eq] at hlength
  rw [room, room]
  omega

/-- The table of a dictionary says where strings start that stand one after another, and the last
position is the end of the string section. -/
structure Dictionary.Packs (d : Dictionary) (strings : List ByteArray) : Prop where
  offset : ∀ i ≤ strings.length, d.offsets.offset d.data i = .ok (bytesBefore strings i)
  length : d.strings.length = bytesBefore strings strings.length

/-- The sections of a dictionary file. -/
def dictionarySections (width : Width) (strings : List ByteArray) : List SectionContent :=
  [(.offsets, (stringStarts strings).flatMap (digits width.bytes)),
    (.strings, strings.flatMap octets)]

/-- **The sections of strings open as a dictionary that holds the strings.** -/
theorem Dictionary.holds_of_sections {data : ByteArray} {l : Layout} {width : Width}
    (hparse : Layout.parse data Header.dictionaryMagic = .ok l)
    (htoc : l.toc = tocFrom Header.size (dictionarySections width strings))
    (hbody : HasBytes data Header.size (contentBytes (dictionarySections width strings)))
    (hcount : l.header.count.toNat = strings.length) (hmany : strings.length + 1 < limit64)
    (hoffsetWidth : l.header.offsetWidth = width.toByte) (hvalueWidth : l.header.valueWidth = 0)
    (hfit : (strings.flatMap octets).length < width.limit) (hlt : StrictlyAscending strings)
    (hsize : data.size < limit64) :
    ∃ d, ofBytes data = .ok d ∧ d.Holds strings ∧ d.Packs strings ∧ d.data = data ∧
      d.layout = l := by
  obtain ⟨offsets, hoffsets, hoffsetsLength, hoffsetsBytes⟩ :=
    Assembly.find_of_hasBytes htoc hbody .offsets rfl
  obtain ⟨text, htext, htextLength, htextBytes⟩ :=
    Assembly.find_of_hasBytes htoc hbody .strings rfl
  have hvalue : l.valueWidth = .ok none := by rw [Layout.valueWidth, if_pos hvalueWidth]
  have hstarts : ∀ p ∈ stringStarts strings, p < width.limit := fun p hp => by
    obtain ⟨i, -, rfl⟩ := List.mem_map.1 hp
    exact Nat.lt_of_le_of_lt (bytesBefore_le strings i) hfit
  obtain ⟨htable, hoffset⟩ := Layout.offsetTable_of_hasBytes hoffsets
    (length_stringStarts strings) hoffsetsLength hoffsetsBytes hoffsetWidth hvalue hstarts hsize
  let d : Dictionary := ⟨data, l, ⟨offsets.start, strings.length + 1, width, none⟩, text⟩
  refine ⟨d, ?_, ⟨hlt, hcount, fun i hi => ?_⟩, ⟨fun i hi => hoffset i _ (getElem?_stringStarts hi),
    htextLength.trans (bytesBefore_length strings).symm⟩, rfl, rfl⟩
  · rw [ofBytes]
    refine bind_eq_ok.2 ⟨l, hparse, bind_eq_ok.2 ⟨(), require_eq_ok.2 (hcount ▸ hmany), ?_⟩⟩
    rw [hcount]
    exact bind_eq_ok.2 ⟨_, htable, bind_eq_ok.2 ⟨text, htext, rfl⟩⟩
  · have hsucc := bytesBefore_succ hi
    have hstop := bytesBefore_le strings (i + 1)
    have hspan : d.span i = .ok (bytesBefore strings i, bytesBefore strings (i + 1)) := by
      have hstart := hoffset i _ (getElem?_stringStarts (by omega))
      have hend := hoffset (i + 1) _ (getElem?_stringStarts hi)
      refine bind_eq_ok.2 ⟨_, hstart, bind_eq_ok.2 ⟨_, hend,
        bind_eq_ok.2 ⟨(), require_eq_ok.2 ⟨by omega, ?_⟩, rfl⟩⟩⟩
      change _ ≤ text.length
      omega
    refine bind_eq_ok.2 ⟨_, hspan, ?_⟩
    have hread := octets_extract_of_hasBytes (hasBytes_string htextBytes hi)
    rw [length_octets, Nat.add_assoc, ← hsucc] at hread
    exact congrArg _ (octets_injective hread)

end

namespace DictionaryWriter

/-- A writer has taken strings. -/
structure Noted (w : DictionaryWriter) (strings : List ByteArray) : Prop where
  last : w.last = strings.getLast?
  positions : w.positions.toList = stringStarts strings
  strings : octets w.strings = strings.flatMap octets

variable {w : DictionaryWriter} {strings : List ByteArray}

theorem noted_create (flags aux : UInt16) : (create flags aux).Noted [] := ⟨rfl, rfl, rfl⟩

/-- **A writer takes each string that comes strictly after the others.** -/
theorem push_of_noted (h : w.Noted strings) {string : ByteArray}
    (hlt : ∀ s ∈ strings, compare s string = .lt) :
    ∃ w', w.push string = .ok w' ∧ w'.Noted (strings ++ [string]) ∧ w'.flags = w.flags ∧
      w'.aux = w.aux := by
  have haccepts : w.accepts string = true := by
    rw [accepts, h.last]
    split
    · rename_i last hlast
      exact beq_iff_eq.2 (hlt last (List.mem_of_getLast? hlast))
    · rfl
  refine ⟨_, if_pos haccepts, ⟨by simp, ?_, by simp [h.strings]⟩, rfl, rfl⟩
  have hsize : w.strings.size + string.size = ((strings ++ [string]).flatMap octets).length := by
    rw [size_eq_length_octets, h.strings]
    simp
  have hpositions : (List.range (strings.length + 1)).map (bytesBefore (strings ++ [string])) =
      (List.range (strings.length + 1)).map (bytesBefore strings) :=
    List.map_congr_left fun i hi =>
      bytesBefore_append _ (Nat.le_of_lt_succ (List.mem_range.1 hi))
  rw [Array.toList_push, h.positions, stringStarts, stringStarts, List.length_append,
    List.length_singleton, List.range_succ (n := strings.length + 1), List.map_append, hpositions,
    List.map_singleton, hsize, ← bytesBefore_length, List.length_append, List.length_singleton]

/-- **A writer takes strictly ascending strings.** -/
theorem pushAll_of_noted (rest : List ByteArray) (h : w.Noted strings)
    (hlt : StrictlyAscending (strings ++ rest)) :
    ∃ w', w.pushAll rest = .ok w' ∧ w'.Noted (strings ++ rest) ∧ w'.flags = w.flags ∧
      w'.aux = w.aux := by
  induction rest generalizing w strings with
  | nil => exact ⟨w, rfl, by rwa [List.append_nil], rfl, rfl⟩
  | cons string rest ih =>
    have hbefore : ∀ s ∈ strings, compare s string = .lt := fun s hs =>
      (List.pairwise_append.1 hlt).2.2 s hs string (by simp)
    obtain ⟨w₁, hpush, h₁, hflags₁, haux₁⟩ := push_of_noted h hbefore
    obtain ⟨w₂, hrest, h₂, hflags₂, haux₂⟩ := ih h₁ (by simpa using hlt)
    refine ⟨w₂, ?_, by simpa using h₂, hflags₂.trans hflags₁, haux₂.trans haux₁⟩
    rw [pushAll, List.foldlM_cons]
    exact bind_eq_ok.2 ⟨w₁, hpush, hrest⟩

/-! ## The file -/

/-- The header of the file. -/
def header (w : DictionaryWriter) : Header where
  magic := Header.dictionaryMagic
  version := Header.currentVersion
  flags := w.flags
  count := UInt64.ofNat w.count
  tocStart := 0
  tocLength := 0
  offsetWidth := (Width.forMax w.strings.size).toByte
  valueWidth := 0
  aux := w.aux

theorem count_of_noted (h : w.Noted strings) : w.count = strings.length := by
  rw [count, ← Array.length_toList, h.positions, stringStarts]
  simp

theorem file_of_noted (h : w.Noted strings) : ∃ a : Assembly,
    a.Holds (dictionarySections (Width.forMax w.strings.size) strings) ∧
      w.file = a.file w.header := by
  have hoffsets := Fills.foldl_array (fun p => Fills.putUInt p (Width.forMax w.strings.size))
    w.positions
  have hstrings := Fills.putBytes w.strings
  rw [h.positions] at hoffsets
  rw [h.strings] at hstrings
  exact ⟨_, (Assembly.holds_empty.addSection .offsets hoffsets).addSection .strings hstrings, rfl⟩

/-- **The file of a writer opens as a dictionary that holds the strings it took**, one after
another, with the right checksums. -/
theorem holds_of_noted (h : w.Noted strings) (hlt : StrictlyAscending strings)
    (hsize : w.file.size < limit64) :
    ∃ d, Dictionary.ofBytes w.file = .ok d ∧ d.Holds strings ∧ d.data = w.file ∧
      d.layout.header.flags = w.flags ∧ d.layout.header.aux = w.aux ∧ d.Packs strings ∧
      d.verify = .ok () := by
  obtain ⟨a, ha, hfile⟩ := file_of_noted h
  rw [hfile] at hsize ⊢
  have hparse := Assembly.parse_file (h := w.header) ha rfl (show 2 < limit32 by decide) hsize
  have hbody := Assembly.hasBytes_file ha w.header
  have hcontent := hbody.length_le_size
  simp only [contentBytes, dictionarySections, List.flatMap_cons, List.flatMap_nil,
    List.append_nil, List.length_append, length_flatMap_of_length (length_digits _),
    length_stringStarts] at hcontent
  have hmany : strings.length + 1 < limit64 := by
    have hpos := (Width.forMax w.strings.size).bytes_pos
    have := Nat.mul_le_mul_left (strings.length + 1) hpos
    omega
  have hfit : (strings.flatMap octets).length < (Width.forMax w.strings.size).limit := by
    rw [← h.strings, length_octets] at hcontent ⊢
    exact Width.lt_limit_forMax (Nat.le_refl _) (by omega)
  have hcount : (a.finished w.header).count.toNat = strings.length := by
    change (UInt64.ofNat w.count).toNat = _
    rw [count_of_noted h]
    exact UInt64.toNat_ofNat'.trans (Nat.mod_eq_of_lt (by rw [limit64] at hmany; omega))
  obtain ⟨d, hopen, hd, hpacks, hdata, hlayout⟩ :=
    Dictionary.holds_of_sections hparse rfl hbody hcount hmany rfl rfl hfit hlt hsize
  refine ⟨d, hopen, hd, hdata, by rw [hlayout]; rfl, by rw [hlayout]; rfl, hpacks, ?_⟩
  rw [Dictionary.verify, hdata, hlayout]
  exact Assembly.verify_file ha rfl

/-- The file is longer than its strings by a bounded amount and eight bytes for each. -/
theorem size_file_le (h : w.Noted strings) : w.file.size ≤ 120 + Dictionary.room strings := by
  obtain ⟨a, ha, hfile⟩ := file_of_noted h
  have hwidth : (Width.forMax w.strings.size).bytes ≤ 8 := by
    cases Width.forMax w.strings.size <;> decide
  have hpositions := Nat.mul_le_mul_left (strings.length + 1) hwidth
  rw [hfile, Assembly.size_file ha]
  simp only [contentBytes, dictionarySections, List.flatMap_cons, List.flatMap_nil,
    List.append_nil, List.length_append, length_flatMap_of_length (length_digits _),
    length_stringStarts, Dictionary.room, List.length_cons, List.length_nil, Header.size,
    TocEntry.size, Footer.size]
  omega

end DictionaryWriter

/-- The file that a writer makes of strings, and their number. -/
def Dictionary.fileOf (strings : List ByteArray) (flags aux : UInt16) :
    Result (ByteArray × Nat) := do
  let w ← (DictionaryWriter.create flags aux).pushAll strings
  return (w.file, w.count)

/-- **Strictly ascending strings can be written, and are read back from the file.** -/
theorem Dictionary.holds_of_fileOf {strings : List ByteArray} (hlt : StrictlyAscending strings)
    (flags aux : UInt16) : ∃ file, fileOf strings flags aux = .ok (file, strings.length) ∧
      file.size ≤ 120 + room strings ∧
      (file.size < limit64 → ∃ d, ofBytes file = .ok d ∧ d.Holds strings ∧ d.data = file ∧
        d.layout.header.flags = flags ∧ d.layout.header.aux = aux) := by
  obtain ⟨w, hpush, hnoted, hflags, haux⟩ :=
    DictionaryWriter.pushAll_of_noted strings (DictionaryWriter.noted_create flags aux) hlt
  refine ⟨w.file, ?_, DictionaryWriter.size_file_le hnoted, fun hsize => ?_⟩
  · rw [fileOf]
    refine bind_eq_ok.2 ⟨w, hpush, ?_⟩
    rw [DictionaryWriter.count_of_noted hnoted]
    rfl
  · obtain ⟨d, hopen, hholds, hdata, hf, ha, -⟩ := DictionaryWriter.holds_of_noted hnoted hlt hsize
    exact ⟨d, hopen, hholds, hdata, hf.trans hflags, ha.trans haux⟩

end TripleStore
