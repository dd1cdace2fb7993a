import TripleStore.Proofs.Disk.Publish
import TripleStore.Proofs.Sorter.Runs
import TripleStore.Proofs.TripleIndex.File
import TripleStore.TripleIndex.Writer

/-!
# Writing an index

A writer of ascending rows notes their groups one row at a time (`Noted.settle_note`), and the file
it writes opens as an index that holds these groups and whose checksums are right
(`holds_of_noted`). It depends on the rows and their order alone, not on where and within which
budget they are sorted by value (`TripleIndex.fileOf`, `write_of_ready`).
-/

namespace TripleStore

namespace IndexWriter

/-- A writer of no rows that has nothing to sort in. -/
def blank (order : RoleOrder) : IndexWriter :=
  ⟨order, #[], #[], #[], Sorter.create .blank "" 0, none, 0, 0⟩

/-- Notes a row and counts it. -/
def absorb (w : IndexWriter) (row : Row) : IndexWriter := (w.note row).settle row

end IndexWriter

namespace TripleIndex

/-- The file of ascending rows. -/
def fileOf (order : RoleOrder) (rows : List Row) : ByteArray :=
  (rows.foldl IndexWriter.absorb (IndexWriter.blank order)).file
    (Sorter.sorted (rows.map Row.turned))

/-- A file is that of rows, and stores them in a room that is bounded by their number. -/
structure Filed (content : ByteArray) (order : RoleOrder) (rows : List Row) : Prop where
  eq_fileOf : content = fileOf order rows
  stores : Stores content order rows
  size_le : content.size ≤ 184 + 48 * rows.length

end TripleIndex

namespace IndexWriter

/-- A writer has noted the rows of groups. -/
structure Noted (w : IndexWriter) (groups : List KeyGroup) : Prop where
  grouped : Grouped groups
  keys : w.keys.toList = groups.map KeyGroup.key
  starts : w.starts.toList = (List.range groups.length).map (rowsBefore groups)
  rows : w.rows.toList = expand KeyGroup.rows groups
  last : w.last = (expand KeyGroup.rows groups).getLast?
  count : w.count = (expand KeyGroup.rows groups).length
  greatest : ∀ r ∈ expand KeyGroup.rows groups,
    r.key ≤ w.greatest ∧ r.subKey ≤ w.greatest ∧ r.value ≤ w.greatest

variable {w : IndexWriter} {groups : List KeyGroup} {row : Row}

/-! ## Noting rows -/

theorem le_max_id (a b : UInt64) : a ≤ max a b ∧ b ≤ max a b := by
  rw [show max a b = if a ≤ b then b else a from rfl]
  split
  · exact ⟨‹_›, UInt64.le_refl b⟩
  · rename_i h
    exact ⟨UInt64.le_refl a, UInt64.le_of_lt (UInt64.not_le.1 h)⟩

/-- A row that is taken in full is among those that the writer knows of. -/
theorem greatest_settle (h : ∀ r ∈ expand KeyGroup.rows groups,
      r.key ≤ w.greatest ∧ r.subKey ≤ w.greatest ∧ r.value ≤ w.greatest) :
    ∀ r ∈ expand KeyGroup.rows groups ++ [row], r.key ≤ (w.settle row).greatest ∧
      r.subKey ≤ (w.settle row).greatest ∧ r.value ≤ (w.settle row).greatest := by
  obtain ⟨hold, hnew⟩ := le_max_id w.greatest (max row.key (max row.subKey row.value))
  obtain ⟨hkey, hrest⟩ := le_max_id row.key (max row.subKey row.value)
  obtain ⟨hsub, hvalue⟩ := le_max_id row.subKey row.value
  intro r hr
  rcases List.mem_append.1 hr with hr | hr
  · obtain ⟨h₁, h₂, h₃⟩ := h r hr
    exact ⟨UInt64.le_trans h₁ hold, UInt64.le_trans h₂ hold, UInt64.le_trans h₃ hold⟩
  · rw [List.mem_singleton.1 hr]
    exact ⟨UInt64.le_trans hkey hnew, UInt64.le_trans (UInt64.le_trans hsub hrest) hnew,
      UInt64.le_trans (UInt64.le_trans hvalue hrest) hnew⟩

/-- The key of a row that comes last is not below any noted key. -/
theorem key_le_of_mem (hg : Grouped groups)
    (hle : ∀ r ∈ expand KeyGroup.rows groups, (compare r row).isLE) :
    ∀ g ∈ groups, g.key ≤ row.key := by
  intro g hmem
  obtain ⟨p, hp⟩ := List.exists_mem_of_ne_nil _ (hg.nonempty g hmem)
  have hrow := hle (Pair.row g.key p) (mem_expand.2 ⟨g, hmem, rfl, hp⟩)
  rcases isLE_compare_row.1 hrow with hlt | ⟨heq, -⟩
  · exact UInt64.le_of_lt hlt
  · exact UInt64.le_of_eq heq

/-- A row of a new key starts a group. -/
theorem Noted.settle_note_of_new (h : w.Noted groups) (hnew : w.startsKey row = true)
    (hlt : ∀ g ∈ groups, g.key < row.key) (s : Sorter Row) :
    ({ w.note row with byValue := s }.settle row).Noted
      (groups ++ [KeyGroup.mk row.key [Pair.ofRow row]]) := by
  have hexpand : expand KeyGroup.rows (groups ++ [KeyGroup.mk row.key [Pair.ofRow row]]) =
      expand KeyGroup.rows groups ++ [row] := expand_append _ _
  refine ⟨h.grouped.append_key hlt _, ?_, ?_, ?_, ?_, ?_, ?_⟩
  · simp [settle, note, hnew, h.keys]
  · have hstarts : (List.range groups.length).map
        (rowsBefore (groups ++ [KeyGroup.mk row.key [Pair.ofRow row]])) =
        (List.range groups.length).map (rowsBefore groups) :=
      List.map_congr_left fun i hi => rowsBefore_append _ (List.mem_range.1 hi).le
    rw [List.length_append, List.length_singleton, List.range_succ, List.map_append, hstarts]
    simp [settle, note, hnew, h.starts, h.count, rowsBefore_append, rowsBefore_length,
      ← map_ofRow_expand]
  · rw [hexpand]
    simp [settle, note, h.rows]
  · rw [hexpand]
    simp [settle]
  · rw [hexpand]
    simp [settle, note, h.count]
  · rw [hexpand]
    exact greatest_settle (w := { w.note row with byValue := s }) h.greatest

theorem expand_append_row (init : List KeyGroup) {g : KeyGroup}
    (hrow : Pair.row g.key (Pair.ofRow row) = row) :
    expand KeyGroup.rows (init ++ [KeyGroup.mk g.key (g.rows ++ [Pair.ofRow row])]) =
      expand KeyGroup.rows (init ++ [g]) ++ [row] := by
  simp only [expand, List.flatMap_append, List.flatMap_singleton, List.map_append, List.map_cons,
    List.map_nil, hrow, List.append_assoc]

/-- A row of the last key joins its group. -/
theorem Noted.settle_note_of_old {init : List KeyGroup} {g : KeyGroup}
    (h : w.Noted (init ++ [g])) (hold : w.startsKey row = false)
    (hrow : Pair.row g.key (Pair.ofRow row) = row)
    (hle : ∀ q ∈ g.rows, Pair.lt (Pair.ofRow row) q = false) (s : Sorter Row) :
    ({ w.note row with byValue := s }.settle row).Noted
      (init ++ [KeyGroup.mk g.key (g.rows ++ [Pair.ofRow row])]) := by
  have hexpand := expand_append_row init hrow
  refine ⟨h.grouped.append_row hle, ?_, ?_, ?_, ?_, ?_, ?_⟩
  · simp [settle, note, hold, h.keys]
  · have hstarts : ∀ a : KeyGroup,
        (List.range (init ++ [a]).length).map (rowsBefore (init ++ [a])) =
          (List.range (init.length + 1)).map (rowsBefore init) := fun a => by
      rw [List.length_append, List.length_singleton]
      refine List.map_congr_left fun i hi => rowsBefore_append _ ?_
      exact Nat.le_of_lt_succ (List.mem_range.1 hi)
    rw [hstarts, ← hstarts g, ← h.starts]
    simp [settle, note, hold]
  · rw [hexpand]
    simp [settle, note, h.rows]
  · rw [hexpand]
    simp [settle]
  · rw [hexpand]
    simp [settle, note, h.count]
  · rw [hexpand]
    exact greatest_settle (w := { w.note row with byValue := s }) h.greatest

/-- The last noted row is not before any other. -/
theorem isLE_of_getLast? {l : List Row} (h : Ascending l) {last : Row}
    (hlast : l.getLast? = some last) : ∀ r ∈ l, (compare r last).isLE := by
  obtain ⟨init, rfl⟩ := List.getLast?_eq_some_iff.1 hlast
  intro r hr
  rcases List.mem_append.1 hr with hr | hr
  · exact (List.pairwise_append.1 h).2.2 r hr last (by simp)
  · rw [List.mem_singleton.1 hr, isLE_compare_row]
    exact .inr ⟨rfl, .inr ⟨rfl, UInt64.le_refl _⟩⟩

/-- **Taking a row in order adds it to the groups.** -/
theorem Noted.settle_note (h : w.Noted groups)
    (hle : ∀ r ∈ expand KeyGroup.rows groups, (compare r row).isLE) (s : Sorter Row) :
    ∃ groups', ({ w.note row with byValue := s }.settle row).Noted groups' ∧
      expand KeyGroup.rows groups' = expand KeyGroup.rows groups ++ [row] := by
  have hascending := ascending_expand h.grouped.ascending h.grouped.keys
  have hkeys := key_le_of_mem h.grouped hle
  cases hlast : (expand KeyGroup.rows groups).getLast? with
  | none =>
    have hnew : w.startsKey row = true := by rw [startsKey, h.last, hlast]
    have hempty := List.getLast?_eq_none_iff.1 hlast
    refine ⟨_, h.settle_note_of_new hnew (fun g hg => ?_) s, expand_append _ _⟩
    obtain ⟨p, hp⟩ := List.exists_mem_of_ne_nil _ (h.grouped.nonempty g hg)
    have hmem : Pair.row g.key p ∈ expand KeyGroup.rows groups := mem_expand.2 ⟨g, hg, rfl, hp⟩
    rw [hempty] at hmem
    cases hmem
  | some last =>
    have hmem := List.mem_of_getLast? hlast
    by_cases hkey : last.key = row.key
    · -- the last group goes on
      have hold : w.startsKey row = false := by simp [startsKey, h.last, hlast, hkey]
      obtain ⟨a, ha, hlastKey, -⟩ := mem_expand.1 hmem
      rcases List.eq_nil_or_concat' groups with rfl | ⟨init, g, rfl⟩
      · cases ha
      have hmax : a.key ≤ g.key := by
        rcases List.mem_append.1 ha with ha | ha
        · exact UInt64.le_of_lt ((List.pairwise_append.1 h.grouped.keys).2.2 a ha g (by simp))
        · rw [List.mem_singleton.1 ha]
          exact UInt64.le_refl _
      have hg : g.key = row.key := by
        rw [← hlastKey, hkey] at hmax
        exact UInt64.le_antisymm (hkeys g (by simp)) hmax
      have hrow : Pair.row g.key (Pair.ofRow row) = row := by
        rw [hg]
        rfl
      refine ⟨_, h.settle_note_of_old hold hrow (fun q hq => ?_) s, ?_⟩
      · have := hle _ (mem_expand.2 ⟨g, by simp, rfl, hq⟩ : Pair.row g.key q ∈ _)
        rw [← hrow] at this
        exact Pair.isLE_compare_row.1 this
      · exact expand_append_row init hrow
    · have hnew : w.startsKey row = true := by simp [startsKey, h.last, hlast, hkey]
      refine ⟨_, h.settle_note_of_new hnew (fun g hg => ?_) s, expand_append _ _⟩
      have hle_last := key_le_of_mem h.grouped (isLE_of_getLast? hascending hlast) g hg
      rcases isLE_compare_row.1 (hle last hmem) with hlt | ⟨heq, -⟩
      · exact UInt64.lt_of_le_of_lt hle_last hlt
      · exact absurd heq hkey

/-! ## The file -/

/-- The header of the file. -/
def header (w : IndexWriter) : Header where
  magic := Header.indexMagic
  version := Header.currentVersion
  flags := w.order.tag
  count := UInt64.ofNat w.count
  tocStart := 0
  tocLength := 0
  offsetWidth := (Width.forMax w.count).toByte
  valueWidth := (Width.forMax w.greatest.toNat).toByte
  aux := 0

theorem idsFit_of_noted (h : w.Noted groups) : IdsFit (Width.forMax w.greatest.toNat) groups := by
  have hfit : ∀ id, id ≤ w.greatest → id.toNat < (Width.forMax w.greatest.toNat).limit :=
    fun id hid => Width.lt_limit_forMax (UInt64.le_iff_toNat_le.1 hid) w.greatest.toNat_lt
  intro g hg
  have hrow : ∀ p ∈ g.rows, Pair.row g.key p ∈ expand KeyGroup.rows groups := fun p hp =>
    mem_expand.2 ⟨g, hg, rfl, hp⟩
  obtain ⟨p, hp⟩ := List.exists_mem_of_ne_nil _ (h.grouped.nonempty g hg)
  refine ⟨hfit _ (h.greatest _ (hrow p hp)).1, fun q hq => ?_⟩
  obtain ⟨-, hsub, hvalue⟩ := h.greatest _ (hrow q hq)
  exact ⟨hfit _ hsub, hfit _ hvalue⟩

/-- A section of rows holds their pairs. -/
theorem flatMap_pairBytes (width : Width) (part : KeyGroup → List Pair) :
    (expand part groups).flatMap (fun r => idBytes width r.subKey ++ idBytes width r.value) =
      (groups.flatMap part).flatMap (pairBytes width) := by
  rw [← map_ofRow_expand, List.flatMap_map]
  rfl

/-- The file is an assembly of the sections of the groups. -/
theorem file_of_noted (h : w.Noted groups) : ∃ a : Assembly,
    a.Holds (indexSections (Width.forMax w.greatest.toNat) (Width.forMax w.count) groups) ∧
      w.file (expand KeyGroup.byValue groups) = a.file w.header := by
  have hid : ∀ id : UInt64, Fills (fun s => s.putUInt id.toNat (Width.forMax w.greatest.toNat))
      (idBytes (Width.forMax w.greatest.toNat) id) := fun id => Fills.putUInt _ _
  have hrow : ∀ r : Row, Fills (fun s => (s.putUInt r.subKey.toNat
      (Width.forMax w.greatest.toNat)).putUInt r.value.toNat (Width.forMax w.greatest.toNat))
      (idBytes (Width.forMax w.greatest.toNat) r.subKey ++
        idBytes (Width.forMax w.greatest.toNat) r.value) := fun r => (hid _).comp (hid _)
  have hkeys := Fills.foldl_array hid w.keys
  have hoffsets := Fills.foldl_array (fun p => Fills.putUInt p (Width.forMax w.count))
    (w.starts.push w.count)
  have hrows := Fills.foldl_array hrow w.rows
  have hbyValue := Fills.foldl hrow (expand KeyGroup.byValue groups)
  rw [h.keys] at hkeys
  rw [h.rows, flatMap_pairBytes] at hrows
  rw [flatMap_pairBytes] at hbyValue
  have hstarts : (w.starts.push w.count).toList = rowStarts groups := by
    rw [Array.toList_push, h.starts, rowStarts, List.range_succ, List.map_append, h.count,
      List.map_singleton, rowsBefore_length, ← map_ofRow_expand, List.length_map]
  rw [hstarts] at hoffsets
  exact ⟨_, (((Assembly.holds_empty.addSection .keys hkeys).addSection .offsets hoffsets).addSection
    .rows hrows).addSection .byValue hbyValue, rfl⟩

/-- **The file of a writer opens as an index of what it noted, with the right checksums.** -/
theorem holds_of_noted (h : w.Noted groups)
    (hsize : (w.file (expand KeyGroup.byValue groups)).size < limit64) :
    ∃ x, TripleIndex.ofBytes (w.file (expand KeyGroup.byValue groups)) = .ok x ∧
      x.order = w.order ∧ x.verify = .ok () ∧ x.Holds groups := by
  obtain ⟨a, ha, hfile⟩ := file_of_noted h
  rw [hfile] at hsize ⊢
  have hparse := Assembly.parse_file (h := w.header) ha rfl (show 4 < limit32 by decide) hsize
  have hbody := Assembly.hasBytes_file ha w.header
  have hcount : w.count = (groups.flatMap KeyGroup.rows).length := by
    rw [h.count, ← map_ofRow_expand, List.length_map]
  have hlimit : w.count < limit64 := by
    have hrows : (groups.flatMap KeyGroup.rows).length *
        (2 * (Width.forMax w.greatest.toNat).bytes) ≤ (a.file w.header).size := by
      rw [← length_flatMap_of_length (length_pairBytes _)]
      obtain ⟨span, -, -, hspan⟩ := Assembly.find_of_hasBytes
        (l := ⟨a.finished w.header, _⟩) rfl hbody .rows rfl
      exact hspan.length_le_size
    have hpos := (Width.forMax w.greatest.toNat).bytes_pos
    rw [← hcount] at hrows
    have : w.count * 1 ≤ w.count * (2 * (Width.forMax w.greatest.toNat).bytes) :=
      Nat.mul_le_mul_left _ (by omega)
    omega
  have hdescribes : TripleIndex.Describes (a.finished w.header) w.order
      (Width.forMax w.greatest.toNat) (Width.forMax w.count) groups := by
    refine ⟨rfl, ?_, rfl, rfl⟩
    rw [← hcount]
    change (UInt64.ofNat w.count).toNat = w.count
    exact UInt64.toNat_ofNat'.trans (Nat.mod_eq_of_lt hlimit)
  have hfits := Width.lt_limit_forMax (Nat.le_refl w.count) hlimit
  obtain ⟨x, hopen, hdata, hlayout, horder, hx⟩ := TripleIndex.holds_of_sections hparse rfl hbody
    hdescribes h.grouped (idsFit_of_noted h) (hcount ▸ hfits) hsize
  refine ⟨x, hopen, horder, ?_, hx⟩
  rw [TripleIndex.verify, hdata, hlayout]
  exact Assembly.verify_file ha rfl

/-- **The file of a writer stores what the writer noted.** -/
theorem stores_of_noted (h : w.Noted groups) : TripleIndex.Stores
    (w.file (expand KeyGroup.byValue groups)) w.order (expand KeyGroup.rows groups) := by
  intro hsize
  have hlimit : (w.file (expand KeyGroup.byValue groups)).size < limit64 := by
    rw [limit64]
    omega
  obtain ⟨x, hopen, horder, hverify, hx⟩ := holds_of_noted h hlimit
  exact ⟨x, hopen, horder, hverify, TripleIndex.answers_of_holds hx⟩

/-- Each row needs at most 48 bytes: two pairs, a key and the number of its first row. -/
theorem size_file_le (h : w.Noted groups) : (w.file (expand KeyGroup.byValue groups)).size ≤
    184 + 48 * (expand KeyGroup.rows groups).length := by
  obtain ⟨a, ha, hfile⟩ := file_of_noted h
  have hwidth : ∀ v : Width, v.bytes ≤ 8 := fun v => by cases v <;> decide
  have hkeys := Nat.mul_le_mul h.grouped.length_le (hwidth (Width.forMax w.greatest.toNat))
  have hstarts := Nat.mul_le_mul (Nat.add_le_add_right h.grouped.length_le 1)
    (hwidth (Width.forMax w.count))
  have hrows := Nat.mul_le_mul_left (groups.flatMap KeyGroup.rows).length
    (Nat.mul_le_mul_left 2 (hwidth (Width.forMax w.greatest.toNat)))
  rw [hfile, Assembly.size_file ha, ← List.length_map Pair.ofRow, map_ofRow_expand]
  simp only [contentBytes, indexSections, List.flatMap_cons, List.flatMap_nil, List.append_nil,
    List.length_append, List.length_map, length_flatMap_of_length (length_idBytes _),
    length_flatMap_of_length (length_digits _), length_flatMap_of_length (length_pairBytes _),
    TripleIndex.length_rowStarts, length_flatMap_part KeyGroup.length_byValue, List.length_cons,
    List.length_nil, Header.size, TocEntry.size, Footer.size]
  omega

/-! ## The run of a writer -/

variable {folder : Path} {name : String} {t : FileTree}

/-- What a writer has taken in: the rows of groups, once in their order and once by value. -/
structure Took (folder : Path) (name : String) (t : FileTree) (w : IndexWriter)
    (groups : List KeyGroup) : Prop where
  noted : w.Noted groups
  absorbed : w = { (expand KeyGroup.rows groups).foldl absorb (blank w.order) with
    byValue := w.byValue }
  byValue : Sorter.Holds folder name t w.byValue ((expand KeyGroup.rows groups).map Row.turned)

theorem took_nothing (order : RoleOrder) (budget : Nat) (hf : t.HasFolder folder)
    (hfree : ∀ i, t.lookup (folder.place ++ [Sorter.runName name i]) ≠ some .directory) :
    Took folder name t { blank order with byValue := Sorter.create folder name budget } [] where
  noted := ⟨⟨by simp, by simp, List.Pairwise.nil⟩, rfl, rfl, rfl, rfl, rfl, by simp [expand]⟩
  absorbed := rfl
  byValue := Sorter.holds_create hf hfree budget

/-- **The file of a writer is that of the rows it took.** -/
theorem filed_of_took (h : w.Took folder name t groups) : TripleIndex.Filed
    (w.file (expand KeyGroup.byValue groups)) w.order (expand KeyGroup.rows groups) where
  eq_fileOf := by
    have hfile := congrArg (file · (expand KeyGroup.byValue groups)) h.absorbed
    rw [TripleIndex.fileOf, sorted_turned h.noted.grouped]
    exact hfile
  stores := stores_of_noted h.noted
  size_le := size_file_le h.noted

/-- What a writer notes of a row does not depend on how it sorts. -/
theorem absorbed_settle_note {v : IndexWriter} {s : Sorter Row} (h : w = { v with byValue := s })
    (row : Row) (s' : Sorter Row) :
    { w.note row with byValue := s' }.settle row = { v.absorb row with byValue := s' } := by
  subst h
  rfl

/-- A writer takes a row that comes in order if its sorter does. -/
theorem push_of_noted {s' : Sorter Row} {t' : FileTree} (h : w.Noted groups)
    (habsorbed : w = { (expand KeyGroup.rows groups).foldl absorb (blank w.order) with
      byValue := w.byValue })
    (hle : ∀ r ∈ expand KeyGroup.rows groups, (compare r row).isLE)
    (hpush : (Sorter.push row.turned).apply w.byValue t = (.ok (), s', t')) :
    ∃ w' groups', (push row).apply w t = (.ok (), w', t') ∧ w'.byValue = s' ∧ w'.Noted groups' ∧
      w' = { (expand KeyGroup.rows groups').foldl absorb (blank w'.order) with
        byValue := w'.byValue } ∧
      expand KeyGroup.rows groups' = expand KeyGroup.rows groups ++ [row] ∧ w'.order = w.order := by
  have haccepts : w.accepts row = true := by
    rw [accepts, h.last]
    split
    · rename_i last hlast
      exact hle last (List.mem_of_getLast? hlast)
    · rfl
  obtain ⟨groups', hnoted, hexpand⟩ := h.settle_note hle s'
  refine ⟨_, groups', ?_, rfl, hnoted, ?_, hexpand, rfl⟩
  · have hpart : (Build.part IndexWriter.byValue (fun w s => { w with byValue := s })
        (Sorter.push row.turned)).apply (w.note row) t =
        (.ok (), { w.note row with byValue := s' }, t') := by
      rw [Build.apply_part, show (w.note row).byValue = w.byValue from rfl, hpush]
    rw [push, Build.apply_bind_of_ok (Build.apply_get w t), Build.apply_require_of_pos haccepts,
      Build.apply_bind_of_ok (Build.apply_modify _ w t)]
    exact Build.apply_bind_of_ok hpart
  · rw [hexpand, List.foldl_append]
    exact absorbed_settle_note habsorbed row s'

/-- **A writer takes each row that comes in order.** -/
theorem push_of_took (hs : t.Sound) (h : w.Took folder name t groups)
    (hle : ∀ r ∈ expand KeyGroup.rows groups, (compare r row).isLE) :
    ∃ w' t' groups', (push row).apply w t = (.ok (), w', t') ∧ w'.Took folder name t' groups' ∧
      expand KeyGroup.rows groups' = expand KeyGroup.rows groups ++ [row] ∧ w'.order = w.order ∧
      Sorter.OffRuns folder name t t' := by
  obtain ⟨s', t', hpush, hs', hoff⟩ := Sorter.push_of_holds hs h.byValue (fits_row row.turned)
  obtain ⟨w', groups', hrun, hsorter, hnoted, habsorbed, hexpand, horder⟩ :=
    push_of_noted h.noted h.absorbed hle hpush
  refine ⟨w', t', groups', hrun, ⟨hnoted, habsorbed, ?_⟩, hexpand, horder, hoff⟩
  rw [hsorter, hexpand, List.map_append]
  exact hs'

/-- **A writer takes ascending rows.** -/
theorem forM_push_of_took {rows : List Row} (hs : t.Sound)
    (h : w.Took folder name t []) (hrows : Ascending rows) :
    ∃ w' t' groups, (rows.forM push).apply w t = (.ok (), w', t') ∧
      w'.Took folder name t' groups ∧ expand KeyGroup.rows groups = rows ∧ w'.order = w.order ∧
      Sorter.OffRuns folder name t t' := by
  let P := fun before (w' : IndexWriter) t' => ∃ groups, w'.Took folder name t' groups ∧
    expand KeyGroup.rows groups = before ∧ w'.order = w.order ∧ Sorter.OffRuns folder name t t'
  obtain ⟨w', t', hrun, groups, htook, hexpand, horder, hoff⟩ :=
    Build.forM_of_step (P := P) (l := rows) (f := push) (fun before row after w₁ t₁ hl h₁ => by
      obtain ⟨groups, htook, rfl, horder, hoff⟩ := h₁
      have hle : ∀ r ∈ expand KeyGroup.rows groups, (compare r row).isLE := by
        intro r hr
        rw [hl] at hrows
        exact (List.pairwise_append.1 hrows).2.2 r hr row (by simp)
      obtain ⟨w₂, t₂, groups₂, hpush, htook₂, hexpand₂, horder₂, hoff₂⟩ :=
        push_of_took hoff.sound htook hle
      exact ⟨w₂, t₂, hpush, groups₂, htook₂, hexpand₂, horder₂.trans horder, hoff.trans hoff₂⟩)
      ⟨[], h, rfl, rfl, Sorter.OffRuns.refl hs⟩
  exact ⟨w', t', groups, hrun, htook, hexpand, horder, hoff⟩

/-- **A writer writes the file of what it took**, which must not be one of its runs. -/
theorem finish_of_took {target : Path} (hs : t.Sound) (h : w.Took folder name t groups)
    (hp : t.Names target) (hend : target.ending = .name)
    (hold : t.lookup target.place ≠ some .directory)
    (hapart : ∀ i, target.place ≠ folder.place ++ [Sorter.runName name i]) :
    ∃ t', (w.finish target).apply t = (.ok w.count, t') ∧ t'.Sound ∧
      t'.lookup target.place = some (.file (w.file (expand KeyGroup.byValue groups))) ∧
      ∀ q, q ≠ target.place → (∀ i, q ≠ folder.place ++ [Sorter.runName name i]) →
        t'.lookup q = t.lookup q := by
  obtain ⟨k, t₁, hfresh, -, habsent, hplaced⟩ :=
    hp.hasFolder_parent.makeFresh hs ".file-" (.file ByteArray.empty)
  have hdots := FileTree.append_toString_ne_dots ".file-" k
  have hrun : ∀ i, target.parent.place ++ [".file-" ++ toString k] ≠
      folder.place ++ [Sorter.runName name i] :=
    fun i heq => Sorter.runName_ne_append_toString name i ".file-" k
      (List.singleton_inj.1 (List.append_inj_right' heq rfl)).symm
  generalize ".file-" ++ toString k = fresh at habsent hfresh hplaced hdots hrun
  have hb₁ := h.byValue.of_lookup (hplaced.hasFolder h.byValue.hasFolder) fun i =>
    hplaced.lookup_of_ne (hrun i).symm
  -- the rows by value are all there
  obtain ⟨t₂, hdrain, hoff⟩ := Sorter.drain_of_holds hplaced.sound hb₁
  rw [sorted_turned h.noted.grouped] at hdrain
  have hlength : (expand KeyGroup.byValue groups).length = w.count := by
    have hcount := congrArg List.length (sorted_turned h.noted.grouped)
    rw [Sorter.length_sorted, List.length_map] at hcount
    rw [h.noted.count, hcount]
  have hcontent : (do
      let byValue ← w.byValue.drain
      Disk.ofResult (require (byValue.length = w.count)
        (.corrupt (.secondaryRowCount byValue.length w.count)))
      return w.file byValue : Disk ByteArray).apply t₁ =
        (.ok (w.file (expand KeyGroup.byValue groups)), t₂) := by
    rw [Disk.apply_bind_of_ok hdrain, require, if_pos hlength]
    rfl
  -- and the file goes to its destination
  have hnames : t₂.Names target :=
    ⟨hp.proper, fun l hl => hoff.lookup_directory hb₁.free ((hplaced.names hp).leads l hl)⟩
  have hheld : t₂.lookup (target.parent.place ++ [fresh]) = some (.file ByteArray.empty) := by
    rw [hoff.outside _ hrun, hplaced.lookup_self]
  have hold₂ : t₂.lookup target.place ≠ some .directory := by
    rw [hoff.outside _ hapart]
    exact hplaced.lookup_ne_directory hold
  obtain ⟨t', hreplace, hs', -, hlookup'⟩ := Disk.replaceFile_of_content hnames hend hdots hfresh
    hcontent hoff.sound hheld hold₂
  refine ⟨t', ?_, hs', ?_, fun q hq hqrun => ?_⟩
  · rw [finish, Disk.apply_bind_of_ok hreplace]
    rfl
  · rw [hlookup', if_pos rfl]
  · rw [hlookup', if_neg hq, hoff.outside q hqrun, hplaced.lookup]
    by_cases hfreshPlace : q = target.parent.place ++ [fresh] <;> simp [hfreshPlace, habsent]

/-! ## Writing rows -/

theorem create_of_hasFolder (hf : t.HasFolder folder) (order : RoleOrder) (budget : Nat) :
    (create folder order budget).apply t = (.ok { blank order with
      byValue := Sorter.create folder (order.fileName ++ "-by-value") budget }, t) := by
  rw [create, Disk.apply_bind_of_ok (Disk.requireFolder_of_hasFolder hf)]
  rfl

/-- Writes the index of ascending rows, sorting them by value in a folder. -/
def write (folder : Path) (order : RoleOrder) (budget : Nat) (rows : List Row) (target : Path) :
    Disk Nat := do
  let w ← create folder order budget
  let w ← Disk.build w (rows.forM push)
  w.finish target

/-- Nothing is in the way of an index that is sorted in a folder and written to a destination. -/
structure Ready (t : FileTree) (folder : Path) (order : RoleOrder) (target : Path) : Prop where
  sound : t.Sound
  hasFolder : t.HasFolder folder
  free : ∀ i, t.lookup (folder.place ++ [Sorter.runName (order.fileName ++ "-by-value") i]) ≠
    some .directory
  names : t.Names target
  ending : target.ending = .name
  old : t.lookup target.place ≠ some .directory
  apart : ∀ i, target.place ≠
    folder.place ++ [Sorter.runName (order.fileName ++ "-by-value") i]

variable {order : RoleOrder} {rows : List Row} {target : Path}

/-- **Where nothing is in the way, the file of any ascending rows is written**, and nothing else
changes but runs. -/
theorem write_of_ready (h : Ready t folder order target) (hrows : Ascending rows) (budget : Nat) :
    ∃ content t', (write folder order budget rows target).apply t = (.ok rows.length, t') ∧
      t'.Sound ∧ t'.lookup target.place = some (.file content) ∧
      TripleIndex.Filed content order rows ∧
      ∀ q, q ≠ target.place →
        (∀ i, q ≠ folder.place ++ [Sorter.runName (order.fileName ++ "-by-value") i]) →
        t'.lookup q = t.lookup q := by
  obtain ⟨w, t₁, groups, hpush, htook, hexpand, horder, hoff⟩ :=
    forM_push_of_took h.sound (took_nothing order budget h.hasFolder h.free) hrows
  have hkeep := fun q => hoff.lookup_directory h.free (q := q)
  have hold : t₁.lookup target.place ≠ some .directory := by
    rw [hoff.outside _ h.apart]
    exact h.old
  obtain ⟨t₂, hfinish, hs₂, hfile, hothers⟩ := finish_of_took hoff.sound htook
    ⟨h.names.proper, fun l hl => hkeep l (h.names.leads l hl)⟩ h.ending hold h.apart
  rw [htook.noted.count, hexpand] at hfinish
  have hfiled := filed_of_took htook
  rw [horder, hexpand] at hfiled
  refine ⟨_, t₂, ?_, hs₂, hfile, hfiled, fun q hq hruns => ?_⟩
  · rw [write, Disk.apply_bind_of_ok (create_of_hasFolder h.hasFolder order budget),
      Disk.apply_bind_of_ok (Disk.apply_build hpush), hfinish]
  · rw [hothers q hq hruns, hoff.outside q hruns]

end IndexWriter

end TripleStore
