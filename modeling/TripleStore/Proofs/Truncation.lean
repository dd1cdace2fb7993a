import TripleStore.Proofs.Canonical
import TripleStore.Proofs.Disk.Outcome

/-!
# Files that were cut short

The header of a file says where its table of contents starts and how many entries it has, and
nothing stands behind the table but the footer. So the header fixes the size of the file (`Flush`),
and what is left of a file that was cut is too short for a header, for a footer or for the table of
contents, whatever the cut ends in: strings may hold the end marker. No checksum has a part in this.
Which error is reported follows from the header, from the number of bytes and from whether the last
ones are the end marker (`parse_of_shorter`).
-/

namespace TripleStore

/-! ## Cuts -/

/-- Fewer bytes than a file has, which start with its header as far as they go. -/
structure Shorter (data file : ByteArray) : Prop where
  size : data.size < file.size
  header : (octets data).take Header.size <+: octets file

/-- What is left of a file that was cut is shorter. -/
theorem shorter_extract {file : ByteArray} {cut : Nat} (hcut : cut < file.size) :
    Shorter (file.extract 0 cut) file where
  size := by
    rw [ByteArray.size_extract]
    omega
  header := by
    rw [octets_extract, List.drop_zero, List.take_take]
    exact List.take_prefix _ _

/-- Why too few bytes do not open as a file whose table of contents starts at `tocStart`. -/
def truncation (tocStart : Nat) (data : ByteArray) : StoreError :=
  if data.size < Header.size then .invalid .shortHeader
  else if data.size < Header.size + Footer.size ∨ ¬ Footer.marker <:+ octets data then
    .corrupt .noFooterAtOpen
  else if data.size < tocStart + Footer.size then .corrupt .tocOffset
  else .corrupt .tocUnreadable

theorem truncation_cases (tocStart : Nat) (data : ByteArray) :
    (∃ misuse, truncation tocStart data = .invalid misuse) ∨
      ∃ damage, truncation tocStart data = .corrupt damage := by
  unfold truncation
  split
  · exact .inl ⟨_, rfl⟩
  split
  · exact .inr ⟨_, rfl⟩
  split
  · exact .inr ⟨_, rfl⟩
  · exact .inr ⟨_, rfl⟩

/-! ## Opening a cut file -/

/-- A file starts with a header that fixes its size: the table of contents ends at the footer. -/
structure Flush (file : ByteArray) (header : Header) : Prop where
  bytes : HasBytes file 0 header.encode
  version : header.version = Header.currentVersion
  start : Header.size ≤ header.tocStart.toNat
  size : file.size = header.tocStart.toNat + header.tocLength.toNat * TocEntry.size + Footer.size

variable {file data : ByteArray} {header : Header}

/-- As long as it is there, the header is that of the whole file. -/
theorem Flush.decode?_of_shorter (h : Flush file header) (hshort : Shorter data file)
    (hsize : Header.size ≤ data.size) : Header.decode? data = some header := by
  have hlength : ((octets data).take Header.size).length = header.encode.length := by
    rw [List.length_take, length_octets, Header.length_encode, Nat.min_eq_left hsize]
  have hprefix := List.prefix_of_prefix_length_le hshort.header h.bytes (Nat.le_of_eq hlength)
  refine Header.decode?_of_hasBytes ?_
  rw [HasBytes, ← hprefix.eq_of_length hlength]
  exact List.take_prefix _ _

/-- **Too few bytes behind a header do not open**, whatever they are. -/
theorem Layout.parse_of_shorter (h : Flush file header) (hshort : Shorter data file) :
    parse data header.magic = .error (truncation header.tocStart.toNat data) := by
  have hsize := h.size
  have hlt := hshort.size
  by_cases hheader : data.size < Header.size
  · rw [parse, Header.decode?, truncation, if_pos hheader, if_pos hheader]
    rfl
  have hread := h.decode?_of_shorter hshort (Nat.le_of_not_lt hheader)
  by_cases hfooter : Header.size + Footer.size ≤ data.size ∧ Footer.marker <:+ octets data
  · have hfound : (Footer.decode? data).isSome :=
      (Footer.isSome_decode?_iff data).2 ⟨Nat.le_of_add_left_le hfooter.1, hfooter.2⟩
    have hcause : ¬ (data.size < Header.size + Footer.size ∨
        ¬ Footer.marker <:+ octets data) := by
      rw [not_or, Nat.not_lt, not_not]
      exact hfooter
    rw [parse, hread, truncation, if_neg hheader, if_neg hcause]
    -- a cut that ends in the marker leaves no room for the table of contents
    by_cases hstart : data.size < header.tocStart.toNat + Footer.size
    · have hcheck : ¬ header.tocStart.toNat ≤ data.size - Footer.size := by omega
      rw [if_pos hstart]
      simp [orFail, h.version, require, hcheck, hfooter, hfound, bind, Except.bind]
    · have hcheck : header.tocStart.toNat ≤ data.size - Footer.size := by omega
      have htoc : parseToc data (data.size - Footer.size) header.tocStart.toNat
          header.tocLength.toNat = none := by
        rw [parseToc, if_neg (by omega)]
      rw [if_neg hstart]
      simp [orFail, h.version, require, h.start, hcheck, hfooter, hfound, htoc, bind, Except.bind]
  · have hcheck : ¬ (Header.size + Footer.size ≤ data.size ∧ (Footer.decode? data).isSome) := by
      intro hboth
      exact hfooter ⟨hboth.1, ((Footer.isSome_decode?_iff data).1 hboth.2).2⟩
    have hcause : data.size < Header.size + Footer.size ∨ ¬ Footer.marker <:+ octets data := by
      rwa [not_and_or, Nat.not_le] at hfooter
    rw [parse, hread, truncation, if_neg hheader, if_pos hcause]
    simp [orFail, h.version, require, hcheck, bind, Except.bind]

/-! ## Files of writers -/

/-- What a writer finished is read at its destination. -/
theorem IndexWriter.load_of_finish (w : IndexWriter) {target : Path} {t t' : FileTree} {n : Nat}
    (hrun : (w.finish target).apply t = (.ok n, t')) :
    ∃ byValue, t'.load target = .ok (w.file byValue) := by
  obtain ⟨_, t₁, hreplace, hlast⟩ := Disk.apply_bind_eq_ok.1 hrun
  obtain ⟨-, rfl⟩ := Prod.mk.inj hlast
  obtain ⟨t₂, t₃, file, hcontent, hload⟩ := Disk.load_of_replaceFile hreplace
  obtain ⟨byValue, t₄, -, hchecked⟩ := Disk.apply_bind_eq_ok.1 hcontent
  obtain ⟨_, t₅, -, hfile⟩ := Disk.apply_bind_eq_ok.1 hchecked
  obtain rfl : w.file byValue = file := Except.ok.inj (Prod.mk.inj hfile).1
  exact ⟨byValue, hload⟩

/-- **The header of an assembled file fixes its size.** -/
theorem Assembly.flush_file {a : Assembly} {sections : List SectionContent} {h : Header}
    (ha : a.Holds sections) (hversion : h.version = Header.currentVersion)
    (hcount : sections.length < limit32) (hsize : (a.file h).size < limit64) :
    Flush (a.file h) (a.finished h) := by
  have hfront := hasBytes_of_octets_eq (octets_file_header a h)
  have hstart := tocStart_finished (h := h) ha hsize
  refine ⟨hfront, hversion, ?_, ?_⟩
  · rw [hstart]
    exact Nat.le_add_right _ _
  · rw [hstart, tocLength_finished ha hcount, size_file ha]

/-- A writer's file is flush, whatever the writer holds. -/
theorem DictionaryWriter.flush_file (w : DictionaryWriter) (hsize : w.file.size < limit64) :
    ∃ header, Flush w.file header ∧ header.magic = Header.dictionaryMagic := by
  have hoffsets := Fills.foldl_array (fun p => Fills.putUInt p (Width.forMax w.strings.size))
    w.positions
  have ha := (Assembly.holds_empty.addSection .offsets hoffsets).addSection .strings
    (Fills.putBytes w.strings)
  exact ⟨_, Assembly.flush_file (h := w.header) ha rfl (show 2 < limit32 by decide) hsize, rfl⟩

theorem IndexWriter.flush_file (w : IndexWriter) (byValue : List Row)
    (hsize : (w.file byValue).size < limit64) :
    ∃ header, Flush (w.file byValue) header ∧ header.magic = Header.indexMagic := by
  have hid := fun id : UInt64 => Fills.putUInt id.toNat (Width.forMax w.greatest.toNat)
  have hrow := fun r : Row => (hid r.subKey).comp (hid r.value)
  have ha := (((Assembly.holds_empty.addSection .keys (Fills.foldl_array hid w.keys)).addSection
    .offsets (Fills.foldl_array (fun p => Fills.putUInt p (Width.forMax w.count))
      (w.starts.push w.count))).addSection
    .rows (Fills.foldl_array hrow w.rows)).addSection .byValue (Fills.foldl hrow byValue)
  exact ⟨_, Assembly.flush_file (h := w.header) ha rfl (show 4 < limit32 by decide) hsize, rfl⟩

/-- A reader notices that bytes were cut off the end of a file. -/
structure NoticesTruncation {α : Type} (ofBytes : ByteArray → Result α) (file : ByteArray) :
    Prop where
  /-- What is left of the file is refused, as invalid or as corrupt. -/
  refuses : ∀ cut < file.size, ∃ e, ofBytes (file.extract 0 cut) = .error e ∧
    ((∃ misuse, e = .invalid misuse) ∨ ∃ damage, e = .corrupt damage)
  /-- Of the bytes behind the header, only their number matters and whether the last ones are the
  end marker, so no checksum does. -/
  cause : ∃ header, Header.decode? file = some header ∧ ∀ data, Shorter data file →
    ofBytes data = .error (truncation header.tocStart.toNat data)

/-- A reader of flush files notices cuts if it opens nothing that does not parse. -/
theorem noticesTruncation_of_flush {α : Type} {ofBytes : ByteArray → Result α}
    (h : Flush file header)
    (hopen : ∀ data e, Layout.parse data header.magic = .error e → ofBytes data = .error e) :
    NoticesTruncation ofBytes file := by
  have hcause : ∀ data, Shorter data file →
      ofBytes data = .error (truncation header.tocStart.toNat data) := by
    intro data hshort
    exact hopen data _ (Layout.parse_of_shorter h hshort)
  refine ⟨?_, header, Header.decode?_of_hasBytes h.bytes, hcause⟩
  intro cut hcut
  exact ⟨_, hcause _ (shorter_extract hcut), truncation_cases _ _⟩

/-- The file of a dictionary writer does not open once it was cut. -/
theorem DictionaryWriter.noticesTruncation_file (w : DictionaryWriter)
    (hsize : w.file.size < 2 ^ 63) : NoticesTruncation Dictionary.ofBytes w.file := by
  obtain ⟨header, hflush, hmagic⟩ := w.flush_file (by rw [limit64]; omega)
  refine noticesTruncation_of_flush hflush ?_
  intro data e herror
  rw [hmagic] at herror
  rw [Dictionary.ofBytes, herror]
  rfl

theorem IndexWriter.noticesTruncation_file (w : IndexWriter) (byValue : List Row)
    (hsize : (w.file byValue).size < 2 ^ 63) :
    NoticesTruncation TripleIndex.ofBytes (w.file byValue) := by
  obtain ⟨header, hflush, hmagic⟩ := w.flush_file byValue (by rw [limit64]; omega)
  refine noticesTruncation_of_flush hflush ?_
  intro data e herror
  rw [hmagic] at herror
  rw [TripleIndex.ofBytes, herror]
  rfl

/-- **Every cut is noticed when the file is opened.** A file that a writer finished is refused as
invalid or corrupt after bytes were cut off its end, whatever it holds and wherever the cut is. -/
theorem notices_truncation :
    (∀ (w : DictionaryWriter) (target : Path) (t t' : FileTree) (n : Nat),
      (w.finish target).apply t = (.ok n, t') →
      ∃ file, t'.load target = .ok file ∧
        (file.size < 2 ^ 63 → NoticesTruncation Dictionary.ofBytes file)) ∧
    ∀ (w : IndexWriter) (target : Path) (t t' : FileTree) (n : Nat),
      (w.finish target).apply t = (.ok n, t') →
      ∃ file, t'.load target = .ok file ∧
        (file.size < 2 ^ 63 → NoticesTruncation TripleIndex.ofBytes file) := by
  constructor
  · intro w target t t' n hrun
    exact ⟨w.file, (DictionaryWriter.load_of_finish hrun).2, w.noticesTruncation_file⟩
  · intro w target t t' n hrun
    obtain ⟨byValue, hload⟩ := w.load_of_finish hrun
    exact ⟨w.file byValue, hload, w.noticesTruncation_file byValue⟩

/-- A dictionary of a string that is the end marker itself, and an index of one row that is sorted
through a run. -/
theorem notices_truncation_at_marker :
    (∃ w t' file, (DictionaryWriter.create 0 0).push Footer.marker.toByteArray = .ok w ∧
      (w.finish ⟨false, ["out"], .name⟩).apply FileTree.empty = (.ok 1, t') ∧
      t'.load ⟨false, ["out"], .name⟩ = .ok file ∧ file.size < 2 ^ 63 ∧
      NoticesTruncation Dictionary.ofBytes file) ∧
    ∃ (w : IndexWriter) (t t' : FileTree) (file : ByteArray),
      (w.finish ⟨false, ["out"], .name⟩).apply t = (.ok 1, t') ∧
      t'.load ⟨false, ["out"], .name⟩ = .ok file ∧ file.size < 2 ^ 63 ∧
      NoticesTruncation TripleIndex.ofBytes file := by
  have hr := IndexWriter.ready_roots .spo
  constructor
  · have hnothing : ∀ s ∈ ([] : List ByteArray), compare s Footer.marker.toByteArray = .lt := by
      simp
    obtain ⟨w, hpush, hnoted, -, -⟩ :=
      DictionaryWriter.push_of_noted (DictionaryWriter.noted_create 0 0) hnothing
    obtain ⟨t', hfinish, -⟩ :=
      DictionaryWriter.finish_of_allowsFile ⟨hr.sound, hr.names, hr.ending, hr.old⟩ w
    rw [DictionaryWriter.count_of_noted hnoted] at hfinish
    obtain ⟨file, hload, hnotices⟩ := notices_truncation.1 w _ _ t' 1 hfinish
    obtain rfl : w.file = file :=
      Except.ok.inj ((DictionaryWriter.load_of_finish hfinish).2.symm.trans hload)
    have hsize : w.file.size < 2 ^ 63 :=
      Nat.lt_of_le_of_lt (DictionaryWriter.size_file_le hnoted) (by decide)
    exact ⟨w, t', _, hpush, hfinish, hload, hsize, hnotices hsize⟩
  · have hrows : Ascending [(⟨1, 2, 3⟩ : Row)] := List.pairwise_singleton _ _
    obtain ⟨content, t', hrun, -, -, hfiled, -⟩ := IndexWriter.write_of_ready hr hrows 1
    obtain ⟨t₁, hrun₁, hload₁⟩ := IndexWriter.writes_fileOf hrows _ _ 1 _ hr
    obtain rfl : t' = t₁ := (Prod.mk.inj (hrun.symm.trans hrun₁)).2
    obtain ⟨_, _, -, hrest⟩ := Disk.apply_bind_eq_ok.1 hrun
    obtain ⟨w, t, -, hfinish⟩ := Disk.apply_bind_eq_ok.1 hrest
    obtain ⟨file, hload, hnotices⟩ := notices_truncation.2 w _ t t' 1 hfinish
    obtain rfl : file = content := Except.ok.inj
      (hload.symm.trans (hload₁.trans (congrArg Except.ok hfiled.eq_fileOf.symm)))
    have hsize : file.size < 2 ^ 63 := Nat.lt_of_le_of_lt hfiled.size_le (by simp)
    exact ⟨w, t, t', file, hfinish, hload, hsize, hnotices hsize⟩

end TripleStore
