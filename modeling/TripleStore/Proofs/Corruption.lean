import TripleStore.Proofs.Crc32
import TripleStore.Proofs.Opening

/-!
# Corruption is detected

A file is intact if the checksum in its footer is that of the bytes between header and footer
(`Intact`). A change of a few neighbouring bytes of the body changes that checksum
(`checksumOf_ne_of_agreeOutside`), and a change of the footer changes the checksum that is stored or
the end marker, so a local change leaves no file intact (`not_intact_of_localChange`). What the
table of contents says after the change does not matter: the checksum of the body is checked in
every case.
-/

namespace TripleStore

/-! ## Local changes -/

/-- Two byte strings of one size are the same before position `start` and from `stop` on. -/
structure AgreeOutside (b b' : ByteArray) (start stop : Nat) : Prop where
  size : b'.size = b.size
  same : ∀ i, i < start ∨ stop ≤ i → (octets b')[i]? = (octets b)[i]?

/-- A file is changed, either in at most four neighbouring bytes between header and footer, or in
the footer. -/
def LocalChange (b b' : ByteArray) : Prop :=
  b' ≠ b ∧
    ((∃ start stop, Header.size ≤ start ∧ stop ≤ start + 4 ∧ stop + Footer.size ≤ b.size ∧
        AgreeOutside b b' start stop) ∨
      AgreeOutside b b' (b.size - Footer.size) b.size)

variable {b b' : ByteArray} {start stop lo hi : Nat}

namespace AgreeOutside

theorem take (h : AgreeOutside b b' start stop) :
    (octets b').take start = (octets b).take start := by
  refine List.ext_getElem? fun i => ?_
  rw [List.getElem?_take, List.getElem?_take]
  split
  · rename_i hi
    exact h.same i (.inl hi)
  · rfl

theorem drop (h : AgreeOutside b b' start stop) :
    (octets b').drop stop = (octets b).drop stop := by
  refine List.ext_getElem? fun i => ?_
  rw [List.getElem?_drop, List.getElem?_drop]
  exact h.same _ (.inr (Nat.le_add_right stop i))

/-- Different byte strings differ in a window that is not empty. -/
theorem start_lt_stop (h : AgreeOutside b b' start stop) (hne : b' ≠ b) : start < stop := by
  refine Nat.lt_of_not_le fun hle => hne (octets_injective (List.ext_getElem? fun i => ?_))
  exact h.same i (by omega)

theorem mono (h : AgreeOutside b b' start stop) (hlo : lo ≤ start) (hhi : stop ≤ hi) :
    AgreeOutside b b' lo hi :=
  ⟨h.size, fun i hi => h.same i (by omega)⟩

end AgreeOutside

/-- A byte string with one byte replaced. -/
def setByte (b : ByteArray) (i : Nat) (x : UInt8) : ByteArray := ((octets b).set i x).toByteArray

/-- **A byte of the body that is replaced by another one is a local change.** -/
theorem localChange_setByte {i : Nat} {x : UInt8} (hstart : Header.size ≤ i)
    (hstop : i + 1 + Footer.size ≤ b.size) (hx : (octets b)[i]? ≠ some x) :
    LocalChange b (setByte b i x) := by
  refine ⟨fun heq => hx ?_, .inl ⟨i, i + 1, hstart, by omega, hstop, ?_, fun j hj => ?_⟩⟩
  · rw [← heq, setByte, octets_toByteArray, List.getElem?_set_self (by rw [length_octets]; omega)]
  · rw [setByte, size_eq_length_octets, octets_toByteArray, List.length_set, length_octets]
  · rw [setByte, octets_toByteArray, List.getElem?_set_ne (by omega)]

/-! ## The checksum of the body -/

/-- A slice of a list that covers a window is the window with what stands around it. -/
theorem take_drop_eq_append {α : Type} (l : List α) (hlo : lo ≤ start) (hle : start ≤ stop)
    (hstop : stop ≤ hi) (hhi : hi ≤ l.length) :
    (l.drop lo).take (hi - lo) = (l.take start).drop lo ++ (l.drop start).take (stop - start) ++
      (l.drop stop).take (hi - stop) := by
  have htake : l.take hi = l.take start ++ ((l.drop start).take (stop - start) ++
      (l.drop stop).take (hi - stop)) := by
    rw [← List.append_assoc, ← List.take_add, Nat.add_sub_cancel' hle, ← List.take_add,
      Nat.add_sub_cancel' hstop]
  rw [← List.drop_take, htake, List.drop_append_of_le_length (by rw [List.length_take]; omega),
    List.append_assoc]

/-- **The checksum of a slice tells a change of up to four neighbouring bytes.** -/
theorem Crc32.checksumOf_ne_of_agreeOutside (h : AgreeOutside b b' start stop) (hne : b' ≠ b)
    (hlo : lo ≤ start) (hshort : stop ≤ start + 4) (hstop : stop ≤ hi) (hhi : hi ≤ b.size) :
    checksumOf b' lo hi ≠ checksumOf b lo hi := by
  have hlt := h.start_lt_stop hne
  have hsize := h.size
  have hwindow : ((octets b').drop start).take (stop - start) ≠
      ((octets b).drop start).take (stop - start) := fun heq => hne <| octets_injective <| by
    have hsplit : ∀ l : List UInt8, l = l.take start ++ ((l.drop start).take (stop - start) ++
        l.drop stop) := fun l => by
      rw [← List.append_assoc, ← List.take_add, Nat.add_sub_cancel' (Nat.le_of_lt hlt),
        List.take_append_drop]
    rw [hsplit (octets b'), hsplit (octets b), h.take, h.drop, heq]
  have hregister := foldl_advance_ne (by simp [hsize]) (by rw [List.length_take]; omega) hwindow
    (((octets b).take start).drop lo) (((octets b).drop stop).take (hi - stop)) initial
  rw [checksumOf_eq_foldl, checksumOf_eq_foldl,
    take_drop_eq_append (octets b') hlo (Nat.le_of_lt hlt) hstop (by rw [length_octets]; omega),
    take_drop_eq_append (octets b) hlo (Nat.le_of_lt hlt) hstop (by rwa [length_octets]),
    h.take, h.drop]
  exact fun heq => hregister ((UInt32.xor_left_inj _).1 heq)

/-- The checksum of a slice is that of the bytes in it. -/
theorem Crc32.checksumOf_congr (h : AgreeOutside b b' start stop) (hhi : hi ≤ start) :
    checksumOf b' lo hi = checksumOf b lo hi := by
  have hslice : ((octets b').drop lo).take (hi - lo) = ((octets b).drop lo).take (hi - lo) := by
    rw [← List.drop_take, ← List.drop_take, (h.mono hhi (Nat.le_refl _)).take]
  rw [checksumOf_eq_foldl, checksumOf_eq_foldl, hslice]

/-! ## The footer -/

/-- **A footer that is read stands at the end of the file.** -/
theorem Footer.drop_of_decode? {data : ByteArray} {c : UInt32} (h : decode? data = some c) :
    (octets data).drop (data.size - size) = encode c := by
  unfold decode? at h
  split at h
  · cases h
  rename_i hsize
  split at h
  · rename_i hmarker
    simp only [size] at h hsize ⊢
    have hmark : (octets data).drop (data.size - 12) = marker := by
      rwa [octets_extract_size] at hmarker
    have hdigits : digits 4 c.toNat = ((octets data).drop (data.size - 16)).take 4 := by
      rw [← Option.some.inj h, toNat_uint32_readDigits, digits_readDigits (by omega)]
    rw [encode, hdigits, ← hmark, show data.size - 12 = data.size - 16 + 4 by omega,
      ← List.drop_drop, List.take_append_drop]
  · cases h

/-! ## Intact files -/

/-- The checksum in the footer of a file is that of the bytes between header and footer. -/
def Intact (data : ByteArray) : Prop :=
  Footer.decode? data = some (Crc32.checksumOf data Header.size (data.size - Footer.size))

/-- **A local change leaves no file intact.** -/
theorem not_intact_of_localChange (h : LocalChange b b') (hb : Intact b)
    (hsize : Header.size + Footer.size ≤ b.size) : ¬ Intact b' := by
  obtain ⟨hne, ⟨start, stop, hstart, hshort, hstop, hagree⟩ | hagree⟩ := h
  · -- the footer is that of `b`, the checksum of the body is not
    have hend : (octets b').drop (b'.size - Footer.size) =
        (octets b).drop (b.size - Footer.size) := by
      rw [hagree.size, (hagree.mono (Nat.le_refl _) (by omega)).drop]
    have hoctets : octets b' = (octets b').take (b'.size - Footer.size) ++
        Footer.encode (Crc32.checksumOf b Header.size (b.size - Footer.size)) := by
      rw [← Footer.drop_of_decode? hb, ← hend, List.take_append_drop]
    have hfooter := Footer.decode?_of_octets_eq hoctets
    intro hb'
    rw [Intact, hfooter, hagree.size] at hb'
    exact Crc32.checksumOf_ne_of_agreeOutside hagree hne hstart hshort (by omega) (Nat.sub_le _ _)
      (Option.some.inj hb').symm
  · -- the checksum of the body is that of `b`, so the footer cannot be
    intro hb'
    have hfront := hagree.take
    rw [Intact, hagree.size, Crc32.checksumOf_congr hagree (Nat.le_refl _)] at hb'
    have hend := Footer.drop_of_decode? hb'
    rw [← Footer.drop_of_decode? hb, hagree.size] at hend
    refine hne (octets_injective ?_)
    rw [← List.take_append_drop (b.size - Footer.size) (octets b'), hfront, hend,
      List.take_append_drop]

variable {l : Layout} {data : ByteArray}

/-- **A file passes its checks if it is intact and the checksum of each section is right.** -/
theorem Layout.verify_eq_ok : l.verify data = .ok () ↔
    (∀ e ∈ l.toc, Crc32.checksumOf data e.span.start e.span.stop = e.checksum) ∧ Intact data := by
  simp only [verify, bind_eq_ok, orFail_eq_ok, require_eq_ok, forM_require_eq_ok]
  constructor
  · rintro ⟨_, hsections, stored, hstored, hbody⟩
    exact ⟨hsections, by rw [Intact, hstored, hbody]⟩
  · rintro ⟨hsections, hbody⟩
    exact ⟨(), hsections, _, hbody, rfl⟩

/-- **A file that is not intact fails its checks.** -/
theorem Layout.exists_damage_of_not_intact (h : ¬ Intact data) (l : Layout) :
    ∃ damage, l.verify data = .error (.corrupt damage) := by
  cases hverify : l.verify data with
  | ok u => exact absurd (verify_eq_ok.1 hverify).2 h
  | error e =>
    obtain ⟨damage, rfl, -⟩ := (l.contained_verify data).eq_corrupt hverify
    exact ⟨damage, rfl⟩

/-! ## Readers -/

/-- **A local change to a file with right checksums is detected**, when the file is opened or when
its checksums are verified. -/
theorem detects_localChange (h : LocalChange b b') :
    (∀ d, Dictionary.ofBytes b = .ok d → d.verify = .ok () →
      (∃ e, Dictionary.ofBytes b' = .error e) ∨
        ∃ d' damage, Dictionary.ofBytes b' = .ok d' ∧ d'.verify = .error (.corrupt damage)) ∧
    ∀ x, TripleIndex.ofBytes b = .ok x → x.verify = .ok () →
      (∃ e, TripleIndex.ofBytes b' = .error e) ∨
        ∃ x' damage, TripleIndex.ofBytes b' = .ok x' ∧ x'.verify = .error (.corrupt damage) := by
  refine ⟨fun d hopen hverify => ?_, fun x hopen hverify => ?_⟩
  · obtain ⟨hdata, hd⟩ := Dictionary.opened_of_ofBytes hopen
    subst hdata
    have hdamaged := not_intact_of_localChange h (Layout.verify_eq_ok.1 hverify).2 hd.sound.size
    cases hopen' : Dictionary.ofBytes b' with
    | error e => exact .inl ⟨e, rfl⟩
    | ok d' =>
      rw [← (Dictionary.opened_of_ofBytes hopen').1] at hdamaged
      obtain ⟨damage, hdamage⟩ := Layout.exists_damage_of_not_intact hdamaged d'.layout
      exact .inr ⟨d', damage, rfl, hdamage⟩
  · obtain ⟨hdata, hx⟩ := TripleIndex.opened_of_ofBytes hopen
    subst hdata
    have hdamaged := not_intact_of_localChange h (Layout.verify_eq_ok.1 hverify).2 hx.sound.size
    cases hopen' : TripleIndex.ofBytes b' with
    | error e => exact .inl ⟨e, rfl⟩
    | ok x' =>
      rw [← (TripleIndex.opened_of_ofBytes hopen').1] at hdamaged
      obtain ⟨damage, hdamage⟩ := Layout.exists_damage_of_not_intact hdamaged x'.layout
      exact .inr ⟨x', damage, rfl, hdamage⟩

/-! ## Two small files -/

/-- The file of a layout with the given bytes as sections. -/
def Layout.file (l : Layout) (body : List UInt8) (checksum : UInt32) : ByteArray :=
  (l.header.encode ++ (body ++ l.toc.flatMap TocEntry.encode) ++ Footer.encode checksum).toByteArray

theorem Layout.octets_file (l : Layout) (body : List UInt8) (checksum : UInt32) :
    octets (l.file body checksum) =
      l.header.encode ++ (body ++ l.toc.flatMap TocEntry.encode) ++ Footer.encode checksum :=
  octets_toByteArray _

/-- The file of a layout is intact if its checksum is that of sections and table of contents. -/
theorem Layout.intact_file {l : Layout} {body : List UInt8} {checksum : UInt32}
    (h : Crc32.checksumOfList (body ++ l.toc.flatMap TocEntry.encode) = checksum) :
    Intact (l.file body checksum) := by
  have hfile := l.octets_file body checksum
  have hend : (l.file body checksum).size - Footer.size =
      Header.size + (body ++ l.toc.flatMap TocEntry.encode).length := by
    rw [size_eq_length_octets, hfile]
    simp only [List.length_append, Header.length_encode, Footer.encode, Footer.marker,
      length_digits, List.length_cons, List.length_nil, Footer.size]
    omega
  have hbytes := hasBytes_of_octets_eq (hfile.trans (List.append_assoc _ _ _))
  rw [Header.length_encode] at hbytes
  rw [Intact, Footer.decode?_of_octets_eq hfile, hend, Crc32.checksumOf_of_hasBytes hbytes, h]

/-- The layout of a dictionary of the string "a". -/
def oneString : Layout where
  header :=
    { magic := Header.dictionaryMagic
      version := Header.currentVersion
      flags := 0
      count := 1
      tocStart := 37
      tocLength := 2
      offsetWidth := 2
      valueWidth := 0
      aux := 0 }
  toc := [⟨.offsets, ⟨32, 4⟩, 0x385FEE5D⟩, ⟨.strings, ⟨36, 1⟩, 0xE8B7BE43⟩]

def oneStringFile : ByteArray := oneString.file [0, 0, 1, 0, 97] 0xE4A48A9A

/-- The layout of an index of the row (7, 1, 2). -/
def oneRow : Layout where
  header :=
    { magic := Header.indexMagic
      version := Header.currentVersion
      flags := RoleOrder.spo.tag
      count := 1
      tocStart := 46
      tocLength := 4
      offsetWidth := 2
      valueWidth := 2
      aux := 0 }
  toc := [⟨.keys, ⟨32, 2⟩, 0x0E988438⟩, ⟨.offsets, ⟨34, 4⟩, 0x385FEE5D⟩,
    ⟨.rows, ⟨38, 4⟩, 0xABCEDAFB⟩, ⟨.byValue, ⟨42, 4⟩, 0x925626D6⟩]

def oneRowFile : ByteArray :=
  oneRow.file [7, 0, 0, 0, 1, 0, 1, 0, 2, 0, 2, 0, 1, 0] 0xD7A83BE8

/-- The checksums of the two files are right. -/
theorem verify_small_files :
    oneString.verify oneStringFile = .ok () ∧ oneRow.verify oneRowFile = .ok () := by
  -- without the table of residues the checksums are computed faster
  have hadvance : Crc32.advance = fun (r : UInt32) (b : UInt8) =>
      (r >>> 8) ^^^ Crc32.residue (r.toUInt8 ^^^ b) := funext₂ Crc32.advance_eq_residue
  refine ⟨Layout.verify_eq_ok.2 ⟨?_, Layout.intact_file ?_⟩,
    Layout.verify_eq_ok.2 ⟨?_, Layout.intact_file ?_⟩⟩
  · simp only [Crc32.checksumOf_eq_foldl, oneStringFile, Layout.octets_file, hadvance]
    decide +kernel
  · rw [Crc32.checksumOfList, hadvance]
    decide +kernel
  · simp only [Crc32.checksumOf_eq_foldl, oneRowFile, Layout.octets_file, hadvance]
    decide +kernel
  · rw [Crc32.checksumOfList, hadvance]
    decide +kernel

/-- A string of a dictionary is changed, and a section of an index is moved by its entry in the
table of contents. -/
theorem detects_localChange_in_small_files :
    (∃ d, Dictionary.ofBytes oneStringFile = .ok d ∧ d.verify = .ok () ∧
      LocalChange oneStringFile (setByte oneStringFile 36 98) ∧
      ((∃ e, Dictionary.ofBytes (setByte oneStringFile 36 98) = .error e) ∨
        ∃ d' damage, Dictionary.ofBytes (setByte oneStringFile 36 98) = .ok d' ∧
          d'.verify = .error (.corrupt damage))) ∧
    ∃ x, TripleIndex.ofBytes oneRowFile = .ok x ∧ x.verify = .ok () ∧
      LocalChange oneRowFile (setByte oneRowFile 50 38) ∧
      ((∃ e, TripleIndex.ofBytes (setByte oneRowFile 50 38) = .error e) ∨
        ∃ x' damage, TripleIndex.ofBytes (setByte oneRowFile 50 38) = .ok x' ∧
          x'.verify = .error (.corrupt damage)) := by
  constructor
  · have hlayout : (Dictionary.ofBytes oneStringFile).map (·.layout) = .ok oneString := by
      simp only [Dictionary.ofBytes, Layout.parse, Layout.disjoint_eq_decide]
      decide +kernel
    obtain ⟨d, hopen, hd⟩ := map_eq_ok.1 hlayout
    have hverify : d.verify = .ok () := by
      rw [Dictionary.verify, hd, (Dictionary.opened_of_ofBytes hopen).1]
      exact verify_small_files.1
    have hchange : LocalChange oneStringFile (setByte oneStringFile 36 98) := by
      refine localChange_setByte (by decide) ?_ ?_
      · rw [size_eq_length_octets, oneStringFile, Layout.octets_file]
        decide +kernel
      · rw [oneStringFile, Layout.octets_file]
        decide +kernel
    exact ⟨d, hopen, hverify, hchange, (detects_localChange hchange).1 d hopen hverify⟩
  · have hlayout : (TripleIndex.ofBytes oneRowFile).map (·.layout) = .ok oneRow := by
      simp only [TripleIndex.ofBytes, Layout.parse, Layout.disjoint_eq_decide]
      decide +kernel
    obtain ⟨x, hopen, hx⟩ := map_eq_ok.1 hlayout
    have hverify : x.verify = .ok () := by
      rw [TripleIndex.verify, hx, (TripleIndex.opened_of_ofBytes hopen).1]
      exact verify_small_files.2
    have hchange : LocalChange oneRowFile (setByte oneRowFile 50 38) := by
      refine localChange_setByte (by decide) ?_ ?_
      · rw [size_eq_length_octets, oneRowFile, Layout.octets_file]
        decide +kernel
      · rw [oneRowFile, Layout.octets_file]
        decide +kernel
    exact ⟨x, hopen, hverify, hchange, (detects_localChange hchange).2 x hopen hverify⟩

end TripleStore
