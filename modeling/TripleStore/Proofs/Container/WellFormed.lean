import TripleStore.Proofs.Container.Runs

/-!
# Well-formed containers

`Container.WellFormed` says of the bytes of a file, without reading it step by step, that header and
footer are in place, that the table of contents lies between them, and that the sections it lists
lie before the table and keep apart from each other. `Layout.parse` opens exactly these files
(`Container.opens_iff_wellFormed`).
-/

namespace TripleStore

/-! ## Reading at a position -/

/-- A number stands where it is read. -/
theorem hasBytes_digits_iff {data : ByteArray} {i w n : Nat} (hstop : i + w ≤ data.size)
    (hn : n < 256 ^ w) : HasBytes data i (digits w n) ↔ readDigits data i w = n := by
  constructor
  · exact fun h => readDigits_of_hasBytes h hn
  · rintro rfl
    rw [digits_readDigits hstop]
    exact List.take_prefix _ _

theorem SectionKind.ofTag?_eq_some_iff {n : Nat} {kind : SectionKind} :
    ofTag? n = some kind ↔ n = kind.tag := by
  constructor
  · intro h
    unfold ofTag? at h
    split at h <;> cases h <;> rfl
  · rintro rfl
    exact ofTag?_tag kind

/-- An entry of a table of contents stands in the 32 bytes from a position on. The third and fourth
of them and the last eight say nothing. -/
structure TocEntry.StandsAt (data : ByteArray) (i : Nat) (e : TocEntry) : Prop where
  kind : readDigits data i 2 = e.kind.tag
  start : readDigits data (i + 4) 8 = e.span.start
  length : readDigits data (i + 12) 8 = e.span.length
  checksum : readDigits data (i + 20) 4 = e.checksum.toNat

namespace TocEntry

variable {data : ByteArray} {i n : Nat} {e : TocEntry} {toc : List TocEntry}

theorem decode?_eq_some_iff : decode? data i = some e ↔ e.StandsAt data i := by
  simp only [decode?, Option.bind_eq_bind, Option.bind_eq_some_iff, Option.pure_def,
    Option.some.injEq, SectionKind.ofTag?_eq_some_iff]
  constructor
  · rintro ⟨kind, hkind, rfl⟩
    exact ⟨hkind, rfl, rfl, (toNat_uint32_readDigits _ _).symm⟩
  · rintro ⟨hkind, hstart, hlength, hchecksum⟩
    exact ⟨e.kind, hkind, by rw [hstart, hlength, hchecksum, UInt32.ofNat_toNat]⟩

/-- **Entries are read one after another.** -/
theorem decodeAll?_eq_some_iff :
    decodeAll? data i n = some toc ↔
      toc.length = n ∧ ∀ k e, toc[k]? = some e → StandsAt data (i + k * size) e := by
  induction n generalizing i toc with
  | zero =>
    rw [decodeAll?, Option.some.injEq, List.length_eq_zero_iff]
    constructor
    · rintro rfl
      simp
    · exact fun h => h.1.symm
  | succ n ih =>
    have hnext (k : Nat) : i + (k + 1) * size = i + size + k * size := by
      rw [Nat.succ_mul]
      omega
    simp only [decodeAll?, Option.bind_eq_bind, Option.bind_eq_some_iff, Option.pure_def,
      Option.some.injEq, decode?_eq_some_iff, ih]
    constructor
    · rintro ⟨first, hfirst, rest, ⟨hlength, hrest⟩, rfl⟩
      refine ⟨by rw [List.length_cons, hlength], fun k e he => ?_⟩
      cases k with
      | zero => simpa [Option.some.inj he] using hfirst
      | succ k => simpa [hnext] using hrest k e he
    · rintro ⟨hlength, h⟩
      obtain ⟨first, rest, rfl⟩ := List.exists_cons_of_length_eq_add_one hlength
      refine ⟨first, by simpa using h 0 first rfl, rest, ⟨Nat.succ.inj hlength, ?_⟩, rfl⟩
      intro k e he
      simpa [hnext] using h (k + 1) e he

end TocEntry

/-! ## Well-formed files -/

namespace Container

/-- Position of the table of contents, as the header says. -/
def tableStart (data : ByteArray) : Nat := readDigits data 16 8

/-- Number of entries of the table of contents, as the header says. -/
def tableLength (data : ByteArray) : Nat := readDigits data 24 4

/-- Position of entry number `i` of the table of contents. -/
def entryStart (data : ByteArray) (i : Nat) : Nat := tableStart data + i * 32

/-- The section that entry number `i` of the table of contents lists. -/
def span (data : ByteArray) (i : Nat) : Section :=
  ⟨readDigits data (entryStart data i + 4) 8, readDigits data (entryStart data i + 12) 8⟩

/-- The bytes of a container file with the given magic. Positions and lengths are numbers of any
size here, so no sum of them wraps around. -/
structure WellFormed (data : ByteArray) (magic : UInt32) : Prop where
  size : 48 ≤ data.size
  magic : digits 4 magic.toNat <+: octets data
  version : HasBytes data 4 (digits 2 1)
  marker : Footer.marker <:+ octets data
  start_ge : 32 ≤ tableStart data
  stop_le : tableStart data + tableLength data * 32 ≤ data.size - 16
  /-- The kind of each section is known. -/
  kind : ∀ i < tableLength data, ∃ kind : SectionKind,
    readDigits data (entryStart data i) 2 = kind.tag
  /-- Each section lies between the header and the table of contents. -/
  inside : ∀ i < tableLength data,
    32 ≤ (span data i).start ∧ (span data i).stop ≤ tableStart data
  /-- Any two sections keep apart. -/
  apart : ∀ i < tableLength data, ∀ j < tableLength data, i ≠ j → (span data i).Apart (span data j)

/-- A table of contents holds the entries that a file lists, in their order. -/
structure Lists (data : ByteArray) (toc : List TocEntry) : Prop where
  length : toc.length = tableLength data
  entry : ∀ i e, toc[i]? = some e → TocEntry.StandsAt data (entryStart data i) e

namespace Lists

variable {data : ByteArray} {toc : List TocEntry}

/-- The sections of a table of contents are those that the file lists. -/
theorem map_span (h : Lists data toc) :
    toc.map (·.span) = (List.range (tableLength data)).map (span data) := by
  have hlength : (toc.map (·.span)).length =
      ((List.range (tableLength data)).map (span data)).length := by
    rw [List.length_map, List.length_map, List.length_range, h.length]
  refine List.ext_getElem hlength fun i hi _ => ?_
  rw [List.length_map] at hi
  have hentry := h.entry i toc[i] (List.getElem?_eq_getElem hi)
  rw [List.getElem_map, List.getElem_map, List.getElem_range, span, hentry.start, hentry.length]

/-- What holds of all sections of the table holds of all that the file lists. -/
theorem forall_span_iff (h : Lists data toc) (p : Section → Prop) :
    (∀ e ∈ toc, p e.span) ↔ ∀ i < tableLength data, p (span data i) := by
  have hmap := h.map_span
  rw [← List.forall_mem_map, hmap, List.forall_mem_map]
  simp only [List.mem_range]

theorem disjoint_iff (h : Lists data toc) :
    Layout.disjoint (toc.map (·.span)) = true ↔ ∀ i < tableLength data, ∀ j < tableLength data,
      i ≠ j → (span data i).Apart (span data j) := by
  rw [Layout.disjoint_iff_pairwise, h.map_span, List.pairwise_map, List.pairwise_iff_getElem]
  simp only [List.length_range, List.getElem_range]
  constructor
  · intro hpairs i hi j hj hne
    rcases Nat.lt_or_gt_of_ne hne with hlt | hlt
    · exact hpairs i j hi hj hlt
    · exact (hpairs j i hj hi hlt).symm
  · intro hpairs i j hi hj hlt
    exact hpairs i hi j hj (Nat.ne_of_lt hlt)

/-- A table of contents is only made of entries of known kinds. -/
theorem kind (h : Lists data toc) :
    ∀ i < tableLength data, ∃ kind : SectionKind,
      readDigits data (entryStart data i) 2 = kind.tag := by
  intro i hi
  have hentry := h.entry i _ (List.getElem?_eq_getElem (h.length ▸ hi))
  exact ⟨_, hentry.kind⟩

end Lists

/-- A file of known kinds of sections has a table of contents. -/
theorem WellFormed.exists_lists {data : ByteArray} {magic : UInt32} (h : WellFormed data magic) :
    ∃ toc, Lists data toc := by
  have hentry (i : Fin (tableLength data)) :
      ∃ e, TocEntry.StandsAt data (entryStart data i) e := by
    obtain ⟨kind, hkind⟩ := h.kind i i.isLt
    exact ⟨⟨kind, span data i, UInt32.ofNat (readDigits data (entryStart data i + 20) 4)⟩, hkind,
      rfl, rfl, (toNat_uint32_readDigits _ _).symm⟩
  choose entry hstands using hentry
  refine ⟨List.ofFn entry, List.length_ofFn, fun i e he => ?_⟩
  obtain ⟨hi, rfl⟩ := List.getElem?_eq_some_iff.1 he
  rw [List.getElem_ofFn]
  exact hstands ⟨i, _⟩

end Container

/-! ## Opening -/

open Container

variable {data : ByteArray} {magic : UInt32}

/-- The header is what stands in front of a file that is long enough. -/
theorem Header.exists_decode? (hsize : size ≤ data.size) :
    ∃ h, decode? data = some h ∧ h.tocStart.toNat = tableStart data ∧
      h.tocLength.toNat = tableLength data ∧
      (∀ magic, h.magic = magic ↔ digits 4 magic.toNat <+: octets data) ∧
      (h.version = currentVersion ↔ HasBytes data 4 (digits 2 1)) := by
  have hlong : 32 ≤ data.size := hsize
  refine ⟨_, if_neg (Nat.not_lt.2 hsize), toNat_uint64_readDigits data 16,
    toNat_uint32_readDigits data 24, fun magic => ?_, ?_⟩
  · rw [← UInt32.toNat_inj, toNat_uint32_readDigits,
      ← hasBytes_digits_iff (by omega) magic.toNat_lt]
    rfl
  · rw [← UInt16.toNat_inj, toNat_uint16_readDigits,
      hasBytes_digits_iff (by omega) (by decide)]
    rfl

/-- The entries of a table of contents are read if it ends in time and lists them. -/
theorem parseToc_eq_some_iff {toc : List TocEntry} {limit : Nat} :
    parseToc data limit (tableStart data) (tableLength data) = some toc ↔
      tableStart data + tableLength data * 32 ≤ limit ∧ Lists data toc := by
  rw [parseToc, Option.ite_none_right_eq_some, TocEntry.decodeAll?_eq_some_iff]
  exact and_congr_right fun _ => ⟨fun h => ⟨h.1, h.2⟩, fun h => ⟨h.length, h.entry⟩⟩

/-- **A file opens with its header and its table of contents exactly if it is well formed.** -/
theorem Layout.parse_eq_ok_iff {l : Layout} :
    parse data magic = .ok l ↔
      WellFormed data magic ∧ Header.decode? data = some l.header ∧ Lists data l.toc := by
  have hinside (toc : List TocEntry) (h : Lists data toc) :
      (∀ e ∈ toc, Header.size ≤ e.span.start ∧ e.span.fits (tableStart data) = true) ↔
        ∀ i < tableLength data,
          32 ≤ (span data i).start ∧ (span data i).stop ≤ tableStart data := by
    simpa only [Section.fits, decide_eq_true_eq, Header.size] using
      h.forall_span_iff fun s => Header.size ≤ s.start ∧ s.fits (tableStart data) = true
  rw [parse_eq_ok, Footer.isSome_decode?_iff]
  constructor
  · rintro ⟨hheader, hmagic, hversion, ⟨hsize, -, hmarker⟩, ⟨hstart, -⟩, htoc, hspans, hdisjoint⟩
    obtain ⟨header, hdecode, htocStart, htocLength, hmagicIff, hversionIff⟩ :=
      Header.exists_decode? (Nat.le_of_add_right_le hsize)
    obtain rfl : header = l.header := Option.some.inj (hdecode.symm.trans hheader)
    rw [htocStart] at hstart htoc hspans
    rw [htocLength] at htoc
    obtain ⟨hstop, hlists⟩ := parseToc_eq_some_iff.1 htoc
    exact ⟨⟨hsize, (hmagicIff magic).1 hmagic, hversionIff.1 hversion, hmarker, hstart, hstop,
      hlists.kind, (hinside _ hlists).1 hspans, hlists.disjoint_iff.1 hdisjoint⟩, hheader, hlists⟩
  · rintro ⟨h, hheader, hlists⟩
    have hsize : 48 ≤ data.size := h.size
    obtain ⟨header, hdecode, htocStart, htocLength, hmagicIff, hversionIff⟩ :=
      Header.exists_decode? (Nat.le_of_add_right_le (k := 16) hsize)
    obtain rfl : header = l.header := Option.some.inj (hdecode.symm.trans hheader)
    rw [htocStart, htocLength]
    refine ⟨hheader, (hmagicIff magic).2 h.magic, hversionIff.2 h.version,
      ⟨hsize, Nat.le_of_add_left_le (k := 32) hsize, h.marker⟩, ⟨h.start_ge, ?_⟩,
      parseToc_eq_some_iff.2 ⟨h.stop_le, hlists⟩, (hinside _ hlists).2 h.inside,
      hlists.disjoint_iff.2 h.apart⟩
    exact Nat.le_of_add_right_le h.stop_le

/-- **The files that open are the well-formed ones.** Opening a file does not fault on a machine,
succeeds exactly if the file is well formed, and then answers its entries in their order. -/
theorem Container.opens_iff_wellFormed (hsize : data.size < 2 ^ 63) (magic : UInt32) :
    Machine.parse data magic = .lift (Layout.parse data magic) ∧
    ((∃ l, Layout.parse data magic = .ok l) ↔ WellFormed data magic) ∧
    ∀ l, Layout.parse data magic = .ok l → Lists data l.toc := by
  refine ⟨Machine.parse_eq_lift (by rw [limit64]; omega) magic, ⟨?_, fun h => ?_⟩, fun l hl => ?_⟩
  · rintro ⟨l, hl⟩
    exact (Layout.parse_eq_ok_iff.1 hl).1
  · obtain ⟨toc, hlists⟩ := h.exists_lists
    obtain ⟨header, hheader, -⟩ := Header.exists_decode? (Nat.le_of_add_right_le (k := 16) h.size)
    exact ⟨⟨header, toc⟩, Layout.parse_eq_ok_iff.2 ⟨h, hheader, hlists⟩⟩
  · exact (Layout.parse_eq_ok_iff.1 hl).2.2

/-- A dictionary of no strings, with its empty section before the one that starts there too. -/
def Container.emptySectionFirst : ByteArray :=
  ((Assembly.empty.addSection .strings id).addSection .offsets (·.putList [0, 0])).file
    ⟨Header.dictionaryMagic, Header.currentVersion, 0, 0, 0, 0, 2, 0, 0⟩

theorem Container.opens_iff_wellFormed_at_empty_section :
    emptySectionFirst.size < 2 ^ 63 ∧ WellFormed emptySectionFirst Header.dictionaryMagic ∧
    ∃ l, Layout.parse emptySectionFirst Header.dictionaryMagic = .ok l ∧
      l.toc.map (·.span) = [⟨32, 0⟩, ⟨32, 2⟩] ∧ Lists emptySectionFirst l.toc := by
  have ha := (Assembly.holds_empty.addSection .strings Fills.nothing).addSection .offsets
    (Fills.putList [0, 0])
  have hsize : emptySectionFirst.size < 2 ^ 63 := by
    rw [emptySectionFirst, Assembly.size_file ha]
    decide
  have hparse := Assembly.parse_file
    (h := ⟨Header.dictionaryMagic, Header.currentVersion, 0, 0, 0, 0, 2, 0, 0⟩) ha rfl (by decide)
    (Nat.lt_trans hsize (by decide))
  obtain ⟨-, hopens, hlists⟩ := opens_iff_wellFormed hsize Header.dictionaryMagic
  exact ⟨hsize, hopens.1 ⟨_, hparse⟩, _, hparse, rfl, hlists _ hparse⟩

end TripleStore
