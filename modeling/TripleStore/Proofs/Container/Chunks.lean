import TripleStore.Proofs.Container.RoundTrip

/-!
# Files that are written chunk by chunk

A section is written as any sequence of chunks: byte strings, numbers in a width, and copies of what
a reader answers. What an assembly makes of such sections is read back with the header it was given,
the sections back to back, and in each of them its chunks joined
(`Container.readsBack_of_chunks`); how the chunks were cut does not show.
-/

namespace TripleStore

/-! ## Chunks -/

/-- What is put into a section at once. -/
inductive Chunk
  | bytes (b : ByteArray)
  /-- A number, of which as many low bytes are put as the width has. -/
  | number (n : Nat) (w : Width)
  /-- The blocks that a reader answers. An empty one is the end. -/
  | copy (blocks : List ByteArray)

namespace Chunk

/-- Puts a chunk into an open section. -/
def put (s : OpenSection) : Chunk → OpenSection
  | bytes b => s.putBytes b
  | number n w => s.putUInt n w
  | copy blocks => s.copyFrom blocks

/-- The bytes that a chunk stands for. -/
def content : Chunk → List UInt8
  | bytes b => octets b
  | number n w => digits w.bytes n
  | copy blocks => (blocks.takeWhile (·.size ≠ 0)).flatMap octets

end Chunk

theorem Fills.copyFrom (blocks : List ByteArray) :
    Fills (·.copyFrom blocks) ((blocks.takeWhile (·.size ≠ 0)).flatMap octets) := by
  induction blocks with
  | nil => exact nothing
  | cons block blocks ih =>
    by_cases hblock : block.size = 0
    · rw [List.takeWhile_cons_of_neg (by simpa using hblock)]
      simp only [OpenSection.copyFrom, if_pos hblock]
      exact nothing
    · rw [List.takeWhile_cons_of_pos (by simpa using hblock)]
      simp only [OpenSection.copyFrom, if_neg hblock]
      exact (putBytes block).comp ih

/-- A chunk fills a section with its bytes. -/
theorem Fills.put (c : Chunk) : Fills (c.put ·) c.content := by
  cases c with
  | bytes b => exact putBytes b
  | number n w => exact putUInt n w
  | copy blocks => exact copyFrom blocks

/-! ## Sections of chunks -/

/-- A section with the chunks that are put into it. -/
abbrev SectionChunks := SectionKind × List Chunk

/-- A section with its chunks joined. -/
def SectionChunks.join (s : SectionChunks) : SectionContent := (s.1, s.2.flatMap Chunk.content)

namespace Assembly

/-- Adds a section and puts its chunks into it. -/
def addChunks (a : Assembly) (s : SectionChunks) : Assembly :=
  a.addSection s.1 fun o => s.2.foldl Chunk.put o

/-- The assembly of sections one after another. -/
def ofChunks (sections : List SectionChunks) : Assembly := sections.foldl addChunks empty

/-- **A section of chunks is added as their join.** -/
theorem Holds.addChunks {a : Assembly} {contents : List SectionContent} (ha : a.Holds contents)
    (s : SectionChunks) : (a.addChunks s).Holds (contents ++ [s.join]) :=
  ha.addSection s.1 (Fills.foldl Fills.put s.2)

theorem holds_foldl_addChunks {a : Assembly} {contents : List SectionContent}
    (ha : a.Holds contents) (sections : List SectionChunks) :
    (sections.foldl Assembly.addChunks a).Holds (contents ++ sections.map SectionChunks.join) := by
  induction sections generalizing a contents with
  | nil => simpa using ha
  | cons s sections ih => simpa using ih (ha.addChunks s)

theorem holds_ofChunks (sections : List SectionChunks) :
    (ofChunks sections).Holds (sections.map SectionChunks.join) :=
  holds_foldl_addChunks holds_empty sections

end Assembly

/-! ## Reading back -/

/-- Sections lie back to back from one position up to another. -/
def Container.Contiguous : Nat → List Section → Nat → Prop
  | start, [], stop => start = stop
  | start, s :: rest, stop => s.start = start ∧ Contiguous s.stop rest stop

/-- An entry lists a section with what stands there. -/
structure TocEntry.Holds (file : ByteArray) (e : TocEntry) (c : SectionContent) : Prop where
  kind : e.kind = c.1
  length : e.span.length = c.2.length
  content : octets (file.extract e.span.start e.span.stop) = c.2

/-- A file is read back as the sections that were written. -/
structure Container.ReadsBack (file : ByteArray) (h : Header) (contents : List SectionContent)
    (l : Layout) : Prop where
  /-- Only the position and the length of the table of contents are filled in. -/
  header : l.header = { h with tocStart := l.header.tocStart, tocLength := l.header.tocLength }
  tocLength : l.header.tocLength.toNat = contents.length
  /-- The table lists the sections in order. -/
  sections : List.Forall₂ (TocEntry.Holds file) l.toc contents
  contiguous : Contiguous 32 (l.toc.map (·.span)) l.header.tocStart.toNat
  /-- The table ends where the footer starts, 16 bytes before the end. -/
  tocStop : l.header.tocStart.toNat + contents.length * 32 + 16 = file.size
  verify : l.verify file = .ok ()

theorem Container.contiguous_tocFrom (start : Nat) (contents : List SectionContent) :
    Contiguous start ((tocFrom start contents).map (·.span))
      (start + (contentBytes contents).length) := by
  induction contents generalizing start with
  | nil => rfl
  | cons c contents ih =>
    have hrest := ih (start + c.2.length)
    rw [Nat.add_assoc, ← List.length_append] at hrest
    exact ⟨rfl, hrest⟩

/-- A table of contents lists what stands in a file. -/
theorem holds_tocFrom {file : ByteArray} {start : Nat} {contents : List SectionContent}
    (hb : HasBytes file start (contentBytes contents)) :
    List.Forall₂ (TocEntry.Holds file) (tocFrom start contents) contents := by
  induction contents generalizing start with
  | nil => exact .nil
  | cons c contents ih =>
    obtain ⟨hc, hrest⟩ := hasBytes_append.1 hb
    exact .cons ⟨rfl, rfl, octets_extract_of_hasBytes hc⟩ (ih hrest)

/-- What an assembly of some sections writes is read back as these. -/
theorem Assembly.Holds.readsBack {a : Assembly} {contents : List SectionContent}
    (ha : a.Holds contents) {h : Header} (hcount : contents.length < limit32)
    (hsize : (a.file h).size < limit64) :
    Container.ReadsBack (a.file h) h contents ⟨a.finished h, tocFrom Header.size contents⟩ := by
  have hstart := tocStart_finished (h := h) ha hsize
  have hs := size_file ha h
  refine ⟨rfl, tocLength_finished ha hcount, holds_tocFrom (hasBytes_file ha h), ?_, ?_,
    verify_file ha rfl⟩
  · rw [hstart]
    exact Container.contiguous_tocFrom Header.size contents
  · rw [hstart, hs, Header.size, TocEntry.size, Footer.size]

/-- **What is written chunk by chunk is read back.** -/
theorem Container.readsBack_of_chunks {sections : List SectionChunks} {h : Header}
    (hversion : h.version = Header.currentVersion) (hcount : sections.length < 2 ^ 32)
    (hsize : ((Assembly.ofChunks sections).file h).size < 2 ^ 63) :
    ∃ l, Layout.parse ((Assembly.ofChunks sections).file h) h.magic = .ok l ∧
      ReadsBack ((Assembly.ofChunks sections).file h) h (sections.map SectionChunks.join) l := by
  have ha := Assembly.holds_ofChunks sections
  have hlength : (sections.map SectionChunks.join).length < limit32 := by
    rw [List.length_map]
    exact hcount
  have hlimit : ((Assembly.ofChunks sections).file h).size < limit64 :=
    Nat.lt_trans hsize (by decide)
  exact ⟨_, Assembly.parse_file ha hversion hlength hlimit, ha.readsBack hlength hlimit⟩

/-- A section of chunks of all three kinds, and an empty one of the same kind. The number does not
fit its width, and the reader is not asked again after an empty block. -/
def Container.mixedChunks : List SectionChunks :=
  [(.keys, [.bytes [97, 98].toByteArray, .number 0x10203 .two,
      .copy [[1].toByteArray, [2, 3].toByteArray, ByteArray.empty, [4].toByteArray]]),
    (.keys, [])]

/-- A header whose widths name no width. -/
def Container.oddHeader : Header := ⟨7, Header.currentVersion, 0xFFFF, 5, 0, 0, 3, 255, 9⟩

theorem Container.readsBack_of_mixedChunks :
    oddHeader.version = Header.currentVersion ∧ mixedChunks.length < 2 ^ 32 ∧
    ((Assembly.ofChunks mixedChunks).file oddHeader).size < 2 ^ 63 ∧
    ∃ l, Layout.parse ((Assembly.ofChunks mixedChunks).file oddHeader) 7 = .ok l ∧
      ReadsBack ((Assembly.ofChunks mixedChunks).file oddHeader) oddHeader
        [(.keys, [97, 98, 3, 2, 1, 2, 3]), (.keys, [])] l := by
  have hcount : mixedChunks.length < 2 ^ 32 := by decide
  have hjoin : mixedChunks.map SectionChunks.join =
      [(.keys, [97, 98, 3, 2, 1, 2, 3]), (.keys, [])] := by
    simp [mixedChunks, SectionChunks.join, Chunk.content, digits, Width.bytes]
  have hsize : ((Assembly.ofChunks mixedChunks).file oddHeader).size < 2 ^ 63 := by
    rw [Assembly.size_file (Assembly.holds_ofChunks mixedChunks), hjoin]
    decide
  obtain ⟨l, hparse, hback⟩ := readsBack_of_chunks (h := oddHeader) rfl hcount hsize
  rw [hjoin] at hback
  exact ⟨rfl, hcount, hsize, l, hparse, hback⟩

end TripleStore
