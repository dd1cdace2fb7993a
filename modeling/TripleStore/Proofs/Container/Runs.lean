import TripleStore.Proofs.Crc32
import TripleStore.Proofs.Machine
import TripleStore.Proofs.Opening

/-!
# Opening a container file on a machine

`Machine.parse` reads header, footer and table of contents with slices that must lie inside the
file, and adds up positions with 64 bits. On a file that is shorter than `limit64` it never faults,
whatever the file holds (`parse_eq_lift`): each position is compared with the size of the file
before it is used. The same holds of the checksums of a file that opened (`verify_eq_lift`).
-/

namespace TripleStore

namespace Machine

/-! ## Runs -/

/-- Reads the header, field by field. -/
def header (data : ByteArray) : Machine Header := do
  lift (require (Header.size ≤ data.size) (.invalid .shortHeader))
  let magic ← digitsAt data 0 4
  let version ← digitsAt data 4 2
  let flags ← digitsAt data 6 2
  let count ← digitsAt data 8 8
  let tocStart ← digitsAt data 16 8
  let tocLength ← digitsAt data 24 4
  let offsetWidth ← digitsAt data 28 1
  let valueWidth ← digitsAt data 29 1
  let aux ← digitsAt data 30 2
  return {
    magic := UInt32.ofNat magic
    version := UInt16.ofNat version
    flags := UInt16.ofNat flags
    count := UInt64.ofNat count
    tocStart := UInt64.ofNat tocStart
    tocLength := UInt32.ofNat tocLength
    offsetWidth := UInt8.ofNat offsetWidth
    valueWidth := UInt8.ofNat valueWidth
    aux := UInt16.ofNat aux }

/-- Reads the checksum in the footer, if there is a footer. -/
def footer (data : ByteArray) : Machine (Option UInt32) :=
  if data.size < Footer.size then return none
  else do
    let base ← minus data.size Footer.size
    fits (base + 4)
    let marker ← slice data (base + 4) data.size
    if octets marker = Footer.marker then
      let checksum ← digitsAt data base 4
      return some (UInt32.ofNat checksum)
    else return none

/-- Reads `n` entries of a table of contents, each from its slice. -/
def tocEntries (data : ByteArray) (i : Nat) : Nat → Machine (List TocEntry)
  | 0 => return []
  | n + 1 => do
    fits (i + TocEntry.size)
    let entry ← slice data i (i + TocEntry.size)
    let tag ← digitsAt entry 0 2
    let kind ← lift (orFail (SectionKind.ofTag? tag) (.corrupt .tocUnreadable))
    let start ← digitsAt entry 4 8
    let length ← digitsAt entry 12 8
    let checksum ← digitsAt entry 20 4
    let rest ← tocEntries data (i + TocEntry.size) n
    return ⟨kind, ⟨start, length⟩, UInt32.ofNat checksum⟩ :: rest

/-- Reads a table of contents. Its end is compared with the size of the data as a checked sum. -/
def toc (data : ByteArray) (start n : Nat) : Machine (List TocEntry) := do
  lift (require (start + n * TocEntry.size < limit64 ∧ start + n * TocEntry.size ≤ data.size)
    (.corrupt .tocUnreadable))
  tocEntries data start n

/-- Compares the end of each span with the start of the next one. -/
def backToBack : List Section → Machine Bool
  | a :: b :: rest => do
    fits (a.start + a.length)
    if a.start + a.length ≤ b.start then backToBack (b :: rest) else return false
  | _ => return true

/-- Reads and checks header, footer and table of contents. -/
def parse (data : ByteArray) (magic : UInt32) : Machine Layout := do
  let header ← header data
  lift (require (header.magic = magic) (.invalid .wrongMagic))
  lift (require (header.version = Header.currentVersion) (.invalid .unknownVersion))
  lift (require (Header.size + Footer.size ≤ data.size) (.corrupt .noFooterAtOpen))
  let stored ← footer data
  lift (require stored.isSome (.corrupt .noFooterAtOpen))
  let bodyEnd ← minus data.size Footer.size
  let tocStart := header.tocStart.toNat
  lift (require (Header.size ≤ tocStart ∧ tocStart ≤ bodyEnd) (.corrupt .tocOffset))
  let body ← slice data 0 bodyEnd
  let toc ← toc body tocStart header.tocLength.toNat
  lift (toc.forM fun e =>
    require (Header.size ≤ e.span.start ∧ e.span.fits tocStart) (.corrupt (.sectionOutside e.kind)))
  let apart ← backToBack ((toc.map (·.span)).mergeSort Layout.spanLe)
  lift (require apart (.corrupt .sectionsOverlap))
  return ⟨header, toc⟩

/-- Recomputes the checksums of slices of the file. -/
def verify (l : Layout) (data : ByteArray) : Machine Unit := do
  l.toc.forM fun e => do
    fits (e.span.start + e.span.length)
    let bytes ← slice data e.span.start (e.span.start + e.span.length)
    lift (require (Crc32.checksum bytes = e.checksum) (.corrupt (.sectionChecksum e.kind)))
  let stored ← footer data
  let stored ← lift (orFail stored (.corrupt .noFooter))
  let bodyEnd ← minus data.size Footer.size
  let body ← slice data Header.size bodyEnd
  lift (require (Crc32.checksum body = stored) (.corrupt .bodyChecksum))

/-! ## No run faults -/

variable {data : ByteArray}

theorem header_eq_lift (data : ByteArray) :
    header data = lift (orFail (Header.decode? data) (.invalid .shortHeader)) := by
  rw [header, Header.decode?]
  by_cases h : Header.size ≤ data.size
  · have hsize : 32 ≤ data.size := h
    rw [require, if_pos h, if_neg (by omega), lift_ok_bind]
    repeat rw [digitsAt_bind (by omega)]
    rfl
  · rw [require, if_neg h, if_pos (by omega)]
    rfl

theorem footer_eq_lift (h : data.size < limit64) :
    footer data = lift (.ok (Footer.decode? data)) := by
  rw [footer, Footer.decode?]
  by_cases hsize : data.size < Footer.size
  · rw [if_pos hsize, if_pos hsize]
    rfl
  · rw [if_neg hsize, if_neg hsize]
    simp only [Footer.size] at hsize ⊢
    rw [minus_bind (by omega), fits_bind (by omega), slice_bind (by omega) (Nat.le_refl _),
      show data.size - 16 + 4 = data.size - 12 by omega]
    split
    · rw [digitsAt_bind (by omega)]
      rfl
    · rfl

/-- Entries are read from their slices as from the file. -/
theorem tocEntries_eq_lift {stop i n : Nat} (h : data.size < limit64) (hstop : stop ≤ data.size)
    (hn : i + n * TocEntry.size ≤ stop) :
    tocEntries (data.extract 0 stop) i n =
      lift (orFail (TocEntry.decodeAll? data i n) (.corrupt .tocUnreadable)) := by
  induction n generalizing i with
  | zero => rfl
  | succ n ih =>
    have hsize : (data.extract 0 stop).size = stop := by
      rw [ByteArray.size_extract]
      omega
    simp only [TocEntry.size] at hn ih
    have hread : ∀ k w, k + w ≤ 32 →
        readDigits ((data.extract 0 stop).extract i (i + 32)) k w = readDigits data (i + k) w := by
      intro k w hkw
      rw [readDigits_extract (by omega) (by omega), readDigits_extract (by omega) hstop,
        Nat.zero_add]
    have hentry : ((data.extract 0 stop).extract i (i + 32)).size = 32 := by
      rw [ByteArray.size_extract]
      omega
    rw [tocEntries, TocEntry.decodeAll?, TocEntry.decode?, TocEntry.size, fits_bind (by omega),
      slice_bind (by omega) (by omega), digitsAt_bind (by omega), hread 0 2 (by omega)]
    cases SectionKind.ofTag? (readDigits data i 2) with
    | none => rfl
    | some kind =>
      change (digitsAt _ 4 8 >>= _) = _
      rw [digitsAt_bind (by omega), digitsAt_bind (by omega), digitsAt_bind (by omega),
        hread 4 8 (by omega), hread 12 8 (by omega), hread 20 4 (by omega), ih (by omega)]
      cases TocEntry.decodeAll? data (i + 32) n <;> rfl

theorem toc_eq_lift {stop start n : Nat} (h : data.size < limit64) (hstop : stop ≤ data.size) :
    toc (data.extract 0 stop) start n =
      lift (orFail (parseToc data stop start n) (.corrupt .tocUnreadable)) := by
  have hsize : (data.extract 0 stop).size = stop := by
    rw [ByteArray.size_extract]
    omega
  rw [toc, parseToc, hsize]
  by_cases hn : start + n * TocEntry.size ≤ stop
  · rw [require, if_pos ⟨by omega, hn⟩, if_pos hn, lift_ok_bind, tocEntries_eq_lift h hstop hn]
  · rw [require, if_neg fun hboth => hn hboth.2, if_neg hn]
    rfl

theorem backToBack_eq_lift {spans : List Section} (h : ∀ s ∈ spans, s.stop < limit64) :
    backToBack spans = lift (.ok (Layout.backToBack spans)) := by
  fun_induction Layout.backToBack spans with
  | case1 a b rest ih =>
    have ha : a.start + a.length < limit64 := h a List.mem_cons_self
    rw [backToBack, fits_bind ha, ih fun s hs => h s (List.mem_cons_of_mem a hs)]
    by_cases hle : a.start + a.length ≤ b.start
    · rw [if_pos hle, Section.stop, decide_eq_true hle, Bool.true_and]
    · rw [if_neg hle, Section.stop, decide_eq_false hle, Bool.false_and]
      rfl
  | case2 spans hspans =>
    cases spans with
    | nil => rfl
    | cons a rest =>
      cases rest with
      | nil => rfl
      | cons b rest => exact absurd rfl (hspans a b rest)

/-- **Opening a container never faults.** -/
theorem parse_eq_lift (h : data.size < limit64) (magic : UInt32) :
    parse data magic = lift (Layout.parse data magic) := by
  rw [parse, Layout.parse, header_eq_lift]
  refine lift_bind_congr fun header _ => lift_bind_congr fun _ _ => lift_bind_congr fun _ _ => ?_
  rw [footer_eq_lift h]
  by_cases hsize : Header.size + Footer.size ≤ data.size
  swap
  · rw [require, if_neg hsize, require, if_neg fun hboth => hsize hboth.1]
    rfl
  by_cases hfooter : (Footer.decode? data).isSome
  swap
  · rw [require, if_pos hsize, require, if_neg fun hboth => hfooter hboth.2, lift_ok_bind,
      lift_ok_bind, require, if_neg hfooter]
    rfl
  rw [require, if_pos hsize, require, if_pos ⟨hsize, hfooter⟩, lift_ok_bind, lift_ok_bind, require,
    if_pos hfooter, lift_ok_bind, minus_bind (by omega)]
  refine lift_bind_congr fun _ hstart => ?_
  rw [require_eq_ok] at hstart
  rw [slice_bind (Nat.zero_le _) (Nat.sub_le _ _), toc_eq_lift h (Nat.sub_le _ _)]
  refine lift_bind_congr fun toc _ => lift_bind_congr fun _ hspans => ?_
  rw [forM_require_eq_ok] at hspans
  rw [backToBack_eq_lift fun s hs => ?_, lift_ok_bind, ← Layout.disjoint]
  · exact lift_bind_congr fun _ _ => rfl
  · obtain ⟨e, he, rfl⟩ := List.mem_map.1 ((List.mem_mergeSort).1 hs)
    have hfits := of_decide_eq_true (hspans e he).2
    omega

/-- **The checksums of a file that opened are computed without a fault.** -/
theorem verify_eq_lift {l : Layout} (hl : l.Sound data) (h : data.size < limit64) :
    verify l data = lift (l.verify data) := by
  have hsize := hl.size
  have hsections : (l.toc.forM fun e => do
      fits (e.span.start + e.span.length)
      let bytes ← slice data e.span.start (e.span.start + e.span.length)
      lift (require (Crc32.checksum bytes = e.checksum) (.corrupt (.sectionChecksum e.kind)))) =
      lift (l.toc.forM fun e =>
        require (Crc32.checksumOf data e.span.start e.span.stop = e.checksum)
          (.corrupt (.sectionChecksum e.kind))) := by
    refine forM_eq_lift fun e he => ?_
    have hstop := (hl.sections e he).stop_le
    simp only [Section.stop] at hstop
    rw [fits_bind (by omega), slice_bind (by omega) (by omega), Crc32.checksum_extract]
    rfl
  rw [verify, Layout.verify, hsections, footer_eq_lift h]
  refine lift_bind_congr fun _ _ => ?_
  rw [lift_ok_bind]
  refine lift_bind_congr fun stored _ => ?_
  rw [minus_bind (by omega), slice_bind (by omega) (by omega), Crc32.checksum_extract]

end Machine

end TripleStore
