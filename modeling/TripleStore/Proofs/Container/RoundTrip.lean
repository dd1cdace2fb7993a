import Mathlib.Data.List.Basic
import TripleStore.Container.Assembly
import TripleStore.Proofs.Container.Bytes
import TripleStore.Proofs.Container.Disjoint

/-!
# Reading a container file back

What an assembly writes, `Layout.parse` reads: the header with the position and length of the table
of contents filled in, and a table that lists the sections back to back (`parse_file`). All of its
checksums are right (`verify_file`), and each section holds the bytes that were put into it
(`hasBytes_file`).
-/

namespace TripleStore

/-! ## Filling a section -/

/-- What a writer of a section puts into it. -/
structure Fills (fill : OpenSection → OpenSection) (payload : List UInt8) : Prop where
  body : ∀ s, octets (fill s).body = octets s.body ++ payload
  register : ∀ s, (fill s).register = payload.foldl Crc32.advance s.register
  sectionRegister : ∀ s, (fill s).sectionRegister = payload.foldl Crc32.advance s.sectionRegister

namespace Fills

variable {f g : OpenSection → OpenSection} {p q : List UInt8}

theorem nothing : Fills id [] := ⟨by simp, by simp, by simp⟩

theorem comp (hf : Fills f p) (hg : Fills g q) : Fills (fun s => g (f s)) (p ++ q) where
  body s := by rw [hg.body, hf.body, List.append_assoc]
  register s := by rw [hg.register, hf.register, List.foldl_append]
  sectionRegister s := by rw [hg.sectionRegister, hf.sectionRegister, List.foldl_append]

theorem foldl {α : Type} {put : OpenSection → α → OpenSection} {bytes : α → List UInt8}
    (h : ∀ a, Fills (put · a) (bytes a)) (l : List α) :
    Fills (fun s => l.foldl put s) (l.flatMap bytes) := by
  induction l with
  | nil => exact nothing
  | cons a l ih => exact comp (h a) ih

theorem foldl_array {α : Type} {put : OpenSection → α → OpenSection} {bytes : α → List UInt8}
    (h : ∀ a, Fills (put · a) (bytes a)) (l : Array α) :
    Fills (fun s => l.foldl put s) (l.toList.flatMap bytes) := by
  simp only [← Array.foldl_toList]
  exact foldl h l.toList

theorem putByte (b : UInt8) : Fills (·.putByte b) [b] where
  body s := octets_push s.body b
  register _ := rfl
  sectionRegister _ := rfl

theorem putList (l : List UInt8) : Fills (·.putList l) l := by
  have := foldl putByte l
  rwa [List.flatMap_singleton'] at this

theorem putUInt (n : Nat) (w : Width) : Fills (·.putUInt n w) (digits w.bytes n) := putList _

theorem putBytes (b : ByteArray) : Fills (·.putBytes b) (octets b) where
  body s := octets_append s.body b
  register s := Crc32.advanceAll_eq_foldl s.register b
  sectionRegister s := Crc32.advanceAll_eq_foldl s.sectionRegister b

end Fills

/-! ## Assemblies -/

/-- The checksum of a list of bytes. -/
def Crc32.checksumOfList (l : List UInt8) : UInt32 := finish (l.foldl advance initial)

/-- A section with its content. -/
abbrev SectionContent := SectionKind × List UInt8

/-- The bytes of sections back to back. -/
def contentBytes (sections : List SectionContent) : List UInt8 := sections.flatMap (·.2)

/-- The table of contents of sections back to back from a position on. -/
def tocFrom (start : Nat) : List SectionContent → List TocEntry
  | [] => []
  | (kind, bytes) :: rest =>
    ⟨kind, ⟨start, bytes.length⟩, Crc32.checksumOfList bytes⟩ :: tocFrom (start + bytes.length) rest

theorem tocFrom_append (start : Nat) (a b : List SectionContent) :
    tocFrom start (a ++ b) = tocFrom start a ++ tocFrom (start + (contentBytes a).length) b := by
  induction a generalizing start with
  | nil => rfl
  | cons c a ih => simp [tocFrom, contentBytes, ih, Nat.add_assoc]

@[simp] theorem length_tocFrom (start : Nat) (sections : List SectionContent) :
    (tocFrom start sections).length = sections.length := by
  induction sections generalizing start with
  | nil => rfl
  | cons c sections ih => simp [tocFrom, ih]

/-- The sections that an assembly holds. -/
structure Assembly.Holds (a : Assembly) (sections : List SectionContent) : Prop where
  body : octets a.body = contentBytes sections
  register : a.register = (contentBytes sections).foldl Crc32.advance Crc32.initial
  toc : a.toc.reverse = tocFrom Header.size sections

namespace Assembly

variable {a : Assembly} {sections : List SectionContent} {h : Header}

theorem holds_empty : empty.Holds [] := ⟨rfl, rfl, rfl⟩

/-- A section that is filled is added at the end. -/
theorem Holds.addSection (ha : a.Holds sections) (kind : SectionKind)
    {fill : OpenSection → OpenSection} {payload : List UInt8} (hf : Fills fill payload) :
    (a.addSection kind fill).Holds (sections ++ [(kind, payload)]) := by
  have hbody : ∀ s : OpenSection, s.body = a.body →
      octets (fill s).body = contentBytes sections ++ payload := fun s hs => by
    rw [hf.body, hs, ha.body]
  refine ⟨?_, ?_, ?_⟩
  · simp [Assembly.addSection, hbody, contentBytes]
  · simp [Assembly.addSection, hf.register, ha.register, contentBytes]
  · have hstart : Header.size + a.body.size = Header.size + (contentBytes sections).length := by
      rw [size_eq_length_octets, ha.body]
    have hlength : ∀ s : OpenSection, s.body = a.body → Header.size + (fill s).body.size -
        (Header.size + (contentBytes sections).length) = payload.length := fun s hs => by
      rw [size_eq_length_octets, hbody s hs, List.length_append]
      omega
    simp [Assembly.addSection, ha.toc, tocFrom_append, tocFrom, position, hstart, hlength,
      hf.sectionRegister, Crc32.checksumOfList]

/-- The header of the finished file. -/
def finished (a : Assembly) (h : Header) : Header :=
  { h with
    tocStart := UInt64.ofNat a.position
    tocLength := UInt32.ofNat a.toc.length }

/-- The bytes of the table of contents. -/
def tocBytes (a : Assembly) : List UInt8 := a.toc.reverse.flatMap TocEntry.encode

/-- A finished file is header, sections, table of contents and footer. -/
theorem octets_file (a : Assembly) (h : Header) :
    octets (a.file h) = (a.finished h).encode ++ (octets a.body ++ (a.tocBytes ++
      Footer.encode (Crc32.finish (a.tocBytes.foldl Crc32.advance a.register)))) := by
  simp [file, finished, tocBytes, Crc32.advanceAll_eq_foldl]

theorem length_tocBytes (ha : a.Holds sections) :
    a.tocBytes.length = sections.length * TocEntry.size := by
  have : ∀ l : List TocEntry, (l.flatMap TocEntry.encode).length = l.length * TocEntry.size := by
    intro l
    induction l with
    | nil => simp
    | cons e l ih => simp [ih, Nat.add_mul, Nat.add_comm]
  rw [tocBytes, this, ha.toc, length_tocFrom]

/-- The footer stands behind everything else. -/
theorem octets_file_footer (a : Assembly) (h : Header) :
    octets (a.file h) = ((a.finished h).encode ++ octets a.body ++ a.tocBytes) ++
      Footer.encode (Crc32.finish (a.tocBytes.foldl Crc32.advance a.register)) := by
  rw [octets_file, List.append_assoc, List.append_assoc]

/-- The header stands in front. -/
theorem octets_file_header (a : Assembly) (h : Header) :
    octets (a.file h) = [] ++ ((a.finished h).encode ++ (octets a.body ++ (a.tocBytes ++
      Footer.encode (Crc32.finish (a.tocBytes.foldl Crc32.advance a.register))))) := by
  rw [octets_file, List.nil_append]

/-- Sections and table of contents stand in between. -/
theorem octets_file_body (a : Assembly) (h : Header) :
    octets (a.file h) = (a.finished h).encode ++ ((octets a.body ++ a.tocBytes) ++
      Footer.encode (Crc32.finish (a.tocBytes.foldl Crc32.advance a.register))) := by
  rw [octets_file, List.append_assoc]

theorem size_file (ha : a.Holds sections) (h : Header) :
    (a.file h).size = Header.size + (contentBytes sections).length +
      sections.length * TocEntry.size + Footer.size := by
  rw [size_eq_length_octets, octets_file, ha.body]
  simp [length_tocBytes ha, Footer.encode, Footer.marker, Footer.size]
  omega

/-- Sections and table of contents stand behind the header. -/
theorem hasBytes_body (ha : a.Holds sections) (h : Header) :
    HasBytes (a.file h) Header.size (contentBytes sections ++ a.tocBytes) := by
  have := hasBytes_of_octets_eq (octets_file_body a h)
  rwa [Header.length_encode, ha.body] at this

/-- The sections stand behind the header. -/
theorem hasBytes_file (ha : a.Holds sections) (h : Header) :
    HasBytes (a.file h) Header.size (contentBytes sections) :=
  (hasBytes_append.1 (hasBytes_body ha h)).1

end Assembly

/-! ## Reading the parts -/

/-- **A header is read back.** -/
theorem Header.decode?_of_hasBytes {data : ByteArray} {h : Header} (hb : HasBytes data 0 h.encode) :
    decode? data = some h := by
  have hsize : ¬ data.size < size := by
    have := hb.le_size (Nat.zero_le _)
    rw [length_encode] at this
    omega
  simp only [encode, hasBytes_append, List.length_append, length_digits] at hb
  obtain ⟨⟨⟨⟨⟨⟨⟨⟨hmagic, hversion⟩, hflags⟩, hcount⟩, hstart⟩, hlength⟩, hoffset⟩, hvalue⟩,
    haux⟩ := hb
  rw [decode?, if_neg hsize, readDigits_of_hasBytes hmagic h.magic.toNat_lt,
    readDigits_of_hasBytes hversion h.version.toNat_lt,
    readDigits_of_hasBytes hflags h.flags.toNat_lt, readDigits_of_hasBytes hcount h.count.toNat_lt,
    readDigits_of_hasBytes hstart h.tocStart.toNat_lt,
    readDigits_of_hasBytes hlength h.tocLength.toNat_lt,
    readDigits_of_hasBytes hoffset h.offsetWidth.toNat_lt,
    readDigits_of_hasBytes hvalue h.valueWidth.toNat_lt,
    readDigits_of_hasBytes haux h.aux.toNat_lt]
  simp

namespace TocEntry

/-- The numbers of an entry have 64 bits. -/
def Fits (e : TocEntry) : Prop := e.span.start < limit64 ∧ e.span.length < limit64

/-- An entry of the table of contents is read back. -/
theorem decode?_of_hasBytes {data : ByteArray} {i : Nat} {e : TocEntry} (he : e.Fits)
    (hb : HasBytes data i e.encode) : decode? data i = some e := by
  simp only [encode, hasBytes_append, List.length_append, length_digits] at hb
  obtain ⟨⟨⟨⟨⟨hkind, -⟩, hstart⟩, hlength⟩, hchecksum⟩, -⟩ := hb
  have htag : e.kind.tag < 256 ^ 2 := by cases e.kind <;> decide
  rw [decode?, readDigits_of_hasBytes hkind htag, SectionKind.ofTag?_tag,
    readDigits_of_hasBytes hstart he.1, readDigits_of_hasBytes hlength he.2,
    readDigits_of_hasBytes hchecksum e.checksum.toNat_lt]
  simp

/-- **A table of contents is read back.** -/
theorem decodeAll?_of_hasBytes {data : ByteArray} {i : Nat} {toc : List TocEntry}
    (ht : ∀ e ∈ toc, e.Fits) (hb : HasBytes data i (toc.flatMap encode)) :
    decodeAll? data i toc.length = some toc := by
  induction toc generalizing i with
  | nil => rfl
  | cons e toc ih =>
    obtain ⟨he, hrest⟩ := hasBytes_append.1 hb
    rw [length_encode] at hrest
    rw [List.length_cons, decodeAll?, decode?_of_hasBytes (ht e (by simp)) he,
      ih (fun e he => ht e (by simp [he])) hrest]
    rfl

end TocEntry

/-- The footer is read back from the end of a file. -/
theorem Footer.decode?_of_octets_eq {data : ByteArray} {pre : List UInt8} {c : UInt32}
    (h : octets data = pre ++ encode c) : decode? data = some c := by
  have hlen : data.size = pre.length + size := by
    rw [size_eq_length_octets, h]; simp [encode, marker, size]
  have hpost : octets data = pre ++ (encode c ++ []) := by rw [h, List.append_nil]
  have hb : HasBytes data pre.length (encode c) := hasBytes_of_octets_eq hpost
  obtain ⟨hchecksum, hmarker⟩ := hasBytes_append.1 hb
  have hend : data.size - 12 = pre.length + (digits 4 c.toNat).length := by
    simp [hlen, size]
  have hstop : data.size = pre.length + (digits 4 c.toNat).length + marker.length := by
    simp [hlen, size, marker]
  have hstart : data.size - size = pre.length := by omega
  have hmark : octets (data.extract (data.size - 12) data.size) = marker := by
    rw [hend, hstop]
    exact octets_extract_of_hasBytes hmarker
  rw [decode?, if_neg (by omega), hmark, if_pos rfl, hstart,
    readDigits_of_hasBytes hchecksum c.toNat_lt]
  simp

/-- A footer is found in a file that is long enough and ends in the end marker. -/
theorem Footer.isSome_decode?_iff (data : ByteArray) :
    (decode? data).isSome ↔ size ≤ data.size ∧ marker <:+ octets data := by
  have hend : octets (data.extract (data.size - 12) data.size) = marker ↔
      marker <:+ octets data := by
    rw [octets_extract_size, List.suffix_iff_eq_drop, length_octets, eq_comm]
    rfl
  unfold decode?
  split
  · rename_i hshort
    simp only [Option.isSome_none, Bool.false_eq_true, false_iff, not_and]
    intro hsize
    exact absurd hshort (Nat.not_lt.2 hsize)
  · rename_i hsize
    rw [← hend]
    split
    · rename_i hmarker
      exact ⟨fun _ => ⟨Nat.le_of_not_lt hsize, hmarker⟩, fun _ => rfl⟩
    · rename_i hmarker
      simp [hmarker]

/-! ## Reading the file -/

theorem forM_require_eq_ok {α : Type} {l : List α} {p : α → Prop} [DecidablePred p]
    {e : α → StoreError} {u : Unit} :
    (l.forM fun a => require (p a) (e a)) = .ok u ↔ ∀ a ∈ l, p a := by
  induction l with
  | nil => simp [List.forM, pure, Except.pure]
  | cons a l ih =>
    change (require (p a) (e a) >>= fun _ => l.forM fun a => require (p a) (e a)) = .ok u ↔ _
    rw [bind_eq_ok]
    simpa using fun _ => ih

/-- A list of checks fails at the first one that fails. -/
theorem forM_require_cases {α : Type} (l : List α) (p : α → Prop) [DecidablePred p]
    (e : α → StoreError) :
    (∀ a ∈ l, p a) ∧ (l.forM fun a => require (p a) (e a)) = .ok () ∨
      ∃ before a after, l = before ++ a :: after ∧ (∀ b ∈ before, p b) ∧ ¬ p a ∧
        (l.forM fun a => require (p a) (e a)) = .error (e a) := by
  induction l with
  | nil => exact .inl ⟨by simp, rfl⟩
  | cons a l ih =>
    have hcons : ((a :: l).forM fun a => require (p a) (e a)) =
        require (p a) (e a) >>= fun _ => l.forM fun a => require (p a) (e a) := rfl
    rw [hcons]
    by_cases ha : p a
    · rw [require, if_pos ha]
      rcases ih with ⟨hall, hok⟩ | ⟨before, b, after, rfl, hbefore, hb, herror⟩
      · exact .inl ⟨by simpa [ha] using hall, hok⟩
      · exact .inr ⟨a :: before, b, after, rfl, by simpa [ha] using hbefore, hb, herror⟩
    · rw [require, if_neg ha]
      exact .inr ⟨[], a, l, rfl, by simp, ha, rfl⟩

/-- The checks that a file passes when it is opened. -/
theorem Layout.parse_eq_ok {data : ByteArray} {magic : UInt32} {l : Layout} :
    parse data magic = .ok l ↔
      Header.decode? data = some l.header ∧ l.header.magic = magic ∧
      l.header.version = Header.currentVersion ∧
      (Header.size + Footer.size ≤ data.size ∧ (Footer.decode? data).isSome) ∧
      (Header.size ≤ l.header.tocStart.toNat ∧
        l.header.tocStart.toNat ≤ data.size - Footer.size) ∧
      parseToc data (data.size - Footer.size) l.header.tocStart.toNat l.header.tocLength.toNat =
        some l.toc ∧
      (∀ e ∈ l.toc, Header.size ≤ e.span.start ∧ e.span.fits l.header.tocStart.toNat) ∧
      disjoint (l.toc.map (·.span)) = true := by
  simp only [parse, bind_eq_ok, orFail_eq_ok, require_eq_ok, forM_require_eq_ok]
  constructor
  · rintro ⟨header, hheader, _, hmagic, _, hversion, _, hfooter, _, hstart, toc, htoc, _, hspans, _,
      hdisjoint, h⟩
    obtain rfl := Except.ok.inj h
    exact ⟨hheader, hmagic, hversion, hfooter, hstart, htoc, hspans, hdisjoint⟩
  · rintro ⟨hheader, hmagic, hversion, hfooter, hstart, htoc, hspans, hdisjoint⟩
    exact ⟨_, hheader, (), hmagic, (), hversion, (), hfooter, (), hstart, _, htoc, (), hspans, (),
      hdisjoint, rfl⟩

/-- Every section of a table of contents lies inside the span of all of them. -/
theorem span_of_mem_tocFrom {start : Nat} {sections : List SectionContent} {e : TocEntry}
    (he : e ∈ tocFrom start sections) :
    start ≤ e.span.start ∧ e.span.stop ≤ start + (contentBytes sections).length := by
  induction sections generalizing start with
  | nil => simp [tocFrom] at he
  | cons c sections ih =>
    simp only [contentBytes, List.flatMap_cons, List.length_append]
    rcases List.mem_cons.1 he with rfl | he
    · simp [Section.stop]
    · obtain ⟨h₁, h₂⟩ := ih he
      simp only [contentBytes] at h₂
      omega

/-- Sections back to back keep apart. -/
theorem disjoint_tocFrom (start : Nat) (sections : List SectionContent) :
    Layout.disjoint ((tocFrom start sections).map (·.span)) = true := by
  rw [Layout.disjoint_iff_pairwise]
  induction sections generalizing start with
  | nil => exact .nil
  | cons c sections ih =>
    refine .cons (fun s hs => ?_) (ih _)
    obtain ⟨e, he, rfl⟩ := List.mem_map.1 hs
    exact .inl (span_of_mem_tocFrom he).1

theorem Crc32.checksumOf_of_hasBytes {data : ByteArray} {i : Nat} {b : List UInt8}
    (h : HasBytes data i b) : checksumOf data i (i + b.length) = checksumOfList b := by
  rw [checksumOf, advanceOver_eq_foldl, Nat.add_sub_cancel_left, ← List.prefix_iff_eq_take.1 h,
    checksumOfList]

namespace Assembly

variable {a : Assembly} {sections : List SectionContent} {h : Header}

/-- The header that the file of an assembly is read back with. -/
theorem tocStart_finished (ha : a.Holds sections) (hsize : (a.file h).size < limit64) :
    (a.finished h).tocStart.toNat = Header.size + (contentBytes sections).length := by
  have hs := size_file ha h
  have hpos : a.position = Header.size + (contentBytes sections).length := by
    rw [position, size_eq_length_octets, ha.body]
  rw [finished, hpos, UInt64.toNat_ofNat', Nat.mod_eq_of_lt]
  rw [limit64] at hsize
  omega

theorem tocLength_finished (ha : a.Holds sections) (hcount : sections.length < limit32) :
    (a.finished h).tocLength.toNat = sections.length := by
  have hlen : a.toc.length = sections.length := by
    rw [← List.length_reverse, ha.toc, length_tocFrom]
  rw [finished, hlen, UInt32.toNat_ofNat', Nat.mod_eq_of_lt]
  exact hcount

/-- **What an assembly writes, the reader reads.** -/
theorem parse_file (ha : a.Holds sections) (hversion : h.version = Header.currentVersion)
    (hcount : sections.length < limit32) (hsize : (a.file h).size < limit64) :
    Layout.parse (a.file h) h.magic = .ok ⟨a.finished h, tocFrom Header.size sections⟩ := by
  have hs := size_file ha h
  have hfront := hasBytes_of_octets_eq (octets_file_header a h)
  have hheader : Header.decode? (a.file h) = some (a.finished h) :=
    Header.decode?_of_hasBytes hfront
  have hfooter : (Footer.decode? (a.file h)).isSome := by
    rw [Footer.decode?_of_octets_eq (octets_file_footer a h)]
    rfl
  have hstart := tocStart_finished (h := h) ha hsize
  have hlength := tocLength_finished (h := h) ha hcount
  have htoc : parseToc (a.file h) ((a.file h).size - Footer.size) (a.finished h).tocStart.toNat
      (a.finished h).tocLength.toNat = some (tocFrom Header.size sections) := by
    rw [parseToc, hstart, hlength, if_pos (by omega), ← length_tocFrom Header.size sections]
    refine TocEntry.decodeAll?_of_hasBytes ?_ ?_
    · intro e he
      have := span_of_mem_tocFrom he
      simp only [Section.stop] at this
      exact ⟨by omega, by omega⟩
    · have := (hasBytes_append.1 (hasBytes_body ha h)).2
      rwa [tocBytes, ha.toc] at this
  refine Layout.parse_eq_ok.2 ⟨hheader, rfl, hversion, ⟨by omega, hfooter⟩, ⟨?_, ?_⟩, htoc, ?_,
    disjoint_tocFrom _ _⟩
  · rw [hstart]
    omega
  · rw [hstart]
    omega
  · intro e he
    have := span_of_mem_tocFrom he
    exact ⟨this.1, by simpa [Section.fits, hstart] using this.2⟩

/-! ## Sections -/

/-- A table of contents lists a kind where its first section stands. -/
theorem find?_tocFrom {data : ByteArray} {kind : SectionKind} {bytes : List UInt8} {start : Nat}
    (hb : HasBytes data start (contentBytes sections))
    (hfirst : sections.find? (·.1 == kind) = some (kind, bytes)) :
    ∃ e, (tocFrom start sections).find? (·.kind == kind) = some e ∧
      e.span.length = bytes.length ∧ HasBytes data e.span.start bytes := by
  induction sections generalizing start with
  | nil => cases hfirst
  | cons c sections ih =>
    obtain ⟨hc, hrest⟩ := hasBytes_append.1 hb
    rw [List.find?_cons] at hfirst
    rw [tocFrom, List.find?_cons]
    split at hfirst
    · rename_i hkind
      obtain rfl := Option.some.inj hfirst
      rw [hkind]
      exact ⟨_, rfl, rfl, hc⟩
    · rename_i hkind
      rw [hkind]
      exact ih hrest hfirst

/-- **The first section of a kind is found with what stands in it.** -/
theorem find_of_hasBytes {data : ByteArray} {l : Layout} {start : Nat}
    (hl : l.toc = tocFrom start sections) (hb : HasBytes data start (contentBytes sections))
    (kind : SectionKind) {bytes : List UInt8}
    (hfirst : sections.find? (·.1 == kind) = some (kind, bytes)) :
    ∃ span, l.find kind = .ok span ∧ span.length = bytes.length ∧
      HasBytes data span.start bytes := by
  obtain ⟨e, he, hrest⟩ := find?_tocFrom hb hfirst
  exact ⟨e.span, by rw [Layout.find, Layout.find?, hl, he]; rfl, hrest⟩

/-! ## Checksums -/

/-- The checksums of sections are those of what stands in them. -/
theorem checksum_of_mem_tocFrom {data : ByteArray} {start : Nat}
    (hb : HasBytes data start (contentBytes sections)) {e : TocEntry}
    (he : e ∈ tocFrom start sections) :
    Crc32.checksumOf data e.span.start e.span.stop = e.checksum := by
  induction sections generalizing start with
  | nil => simp [tocFrom] at he
  | cons c sections ih =>
    obtain ⟨hc, hrest⟩ := hasBytes_append.1 hb
    rcases List.mem_cons.1 he with rfl | he
    · exact Crc32.checksumOf_of_hasBytes hc
    · exact ih hrest he

/-- **The checksums that an assembly writes are right.** -/
theorem verify_file (ha : a.Holds sections) {l : Layout}
    (hl : l.toc = tocFrom Header.size sections) : l.verify (a.file h) = .ok () := by
  have hs := size_file ha h
  have hbody := hasBytes_body ha h
  have hfooter := Footer.decode?_of_octets_eq (octets_file_footer a h)
  have hend : (a.file h).size - Footer.size =
      Header.size + (contentBytes sections ++ a.tocBytes).length := by
    rw [List.length_append, length_tocBytes ha]
    omega
  simp only [Layout.verify, bind_eq_ok, orFail_eq_ok, require_eq_ok, forM_require_eq_ok, hl]
  refine ⟨(), fun e he => checksum_of_mem_tocFrom (hasBytes_file ha h) he, _, hfooter, ?_⟩
  rw [hend, Crc32.checksumOf_of_hasBytes hbody, Crc32.checksumOfList, List.foldl_append,
    ha.register]

end Assembly

/-! ## Offsets -/

/-- **The table of the offsets that a file holds opens, and answers them.** -/
theorem Layout.offsetTable_of_hasBytes {data : ByteArray} {l : Layout} {span : Section}
    {width : Width} {value : Option Width} {positions : List Nat} {n : Nat}
    (hfind : l.find .offsets = .ok span) (hn : positions.length = n)
    (hlength : span.length = (positions.flatMap (digits width.bytes)).length)
    (hbytes : HasBytes data span.start (positions.flatMap (digits width.bytes)))
    (hwidth : l.header.offsetWidth = width.toByte) (hvalue : l.valueWidth = .ok value)
    (hfit : ∀ p ∈ positions, p < width.limit) (hsize : data.size < limit64) :
    l.offsetTable n = .ok ⟨span.start, n, width, value⟩ ∧
      ∀ i p, positions[i]? = some p →
        OffsetTable.offset ⟨span.start, n, width, value⟩ data i = .ok p := by
  have hneed := hbytes.length_le_size
  rw [← hlength] at hneed
  rw [length_flatMap_of_length (length_digits width.bytes), hn] at hlength
  constructor
  · rw [offsetTable]
    refine bind_eq_ok.2 ⟨_, hfind, bind_eq_ok.2 ⟨width, ?_, ?_⟩⟩
    · rw [offsetWidth, hwidth, Width.ofByte?_toByte]
      rfl
    · refine bind_eq_ok.2 ⟨(), require_eq_ok.2 (by omega), ?_⟩
      exact bind_eq_ok.2 ⟨(), require_eq_ok.2 hlength, bind_eq_ok.2 ⟨_, hvalue, rfl⟩⟩
  · intro i p hp
    obtain ⟨hi, rfl⟩ := List.getElem?_eq_some_iff.1 hp
    have hoffset := hasBytes_of_flatMap (length_digits width.bytes) hbytes hi
    have hstop := stop_le_of_hasBytes hoffset
    have hposition : span.start + i * width.bytes < limit64 := by omega
    exact bind_eq_ok.2 ⟨(), require_eq_ok.2 (hn ▸ hi), bind_eq_ok.2 ⟨(), require_eq_ok.2 hposition,
      orFail_eq_ok.2 (readUInt?_of_hasBytes hoffset (hfit _ (List.getElem_mem hi)))⟩⟩

end TripleStore
