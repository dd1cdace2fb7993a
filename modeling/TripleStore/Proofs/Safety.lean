import TripleStore.Proofs.Corruption
import TripleStore.Proofs.Dictionary.Runs
import TripleStore.Proofs.Dictionary.Safety
import TripleStore.Proofs.TripleIndex.Runs

/-!
# Opening is enough for safe reading

Any bytes can be opened, as a dictionary or as an index, without a fault of the machine. Once a file
is open, no read of it faults, leaves the file, or fails in any other way than by reporting a
damage, but for an id of a dictionary that is out of range (`Dictionary.ReadsSafely`,
`TripleIndex.ReadsSafely`). None of this needs the checks or the checksums of the file
(`readsSafely_of_ofBytes`).
-/

namespace TripleStore

/-- Every read of a dictionary is safe. -/
structure Dictionary.ReadsSafely (d : Dictionary) : Prop where
  /-- Every section lies inside the file. -/
  sections : ∀ e ∈ d.layout.toc, InBody d.data e.span.start e.span.stop
  /-- Every position of the offset table lies inside the file. -/
  positions : ∀ i ≤ d.count, InBody d.data (d.offsets.start + i * d.offsets.width.bytes)
    (d.offsets.start + i * d.offsets.width.bytes + d.offsets.width.bytes)
  /-- Every string that is read lies inside the file. -/
  strings : ∀ i start stop, d.span i = .ok (start, stop) →
    InBody d.data (d.strings.start + start) (d.strings.start + stop)
  /-- An id is out of range exactly if no string has it. -/
  outOfRange : ∀ id, IsOutOfRange (d.get id) ↔ id = 0 ∨ d.count < id
  get : ∀ id, 1 ≤ id ∧ id ≤ d.count → Contained (d.get id)
  find : ∀ key, Contained (d.find key)
  items : ∀ item ∈ d.items, Contained item
  validate : Contained d.validate
  verify : Contained d.verify
  /-- No read faults on a machine. `validate` has no step that could. -/
  get_run : ∀ id, Machine.get d id = .lift (d.get id)
  find_run : ∀ key, Machine.find d key = .lift (d.find key)
  items_run : Machine.items d = .lift (.ok d.items)
  verify_run : Machine.verify d.layout d.data = .lift d.verify

/-- Every read of an index is safe. -/
structure TripleIndex.ReadsSafely (x : TripleIndex) : Prop where
  /-- Every section lies inside the file. -/
  sections : ∀ e ∈ x.layout.toc, InBody x.data e.span.start e.span.stop
  /-- Every position of the table of first rows lies inside the file. -/
  positions : ∀ i ≤ x.keyCount, InBody x.data (x.table.start + i * x.table.width.bytes)
    (x.table.start + i * x.table.width.bytes + x.table.width.bytes)
  /-- Every key lies inside the file. -/
  keyPositions : ∀ i < x.keyCount, InBody x.data (x.keySection.start + i * x.width.bytes)
    (x.keySection.start + i * x.width.bytes + x.width.bytes)
  /-- Every row lies inside the file, in either section. -/
  rowPositions : ∀ part, x.HoldsRows part → ∀ row < x.count,
    InBody x.data (part.start + row * (2 * x.width.bytes))
      (part.start + row * (2 * x.width.bytes) + 2 * x.width.bytes)
  /-- No key is an error. -/
  keys : ∃ l : List UInt64, x.keys = l.map .ok
  /-- The pairs of a key are answered without errors among them, or a damage is reported. -/
  pairs : ∀ key, Listed (x.pairs key)
  values : ∀ key subKey, Listed (x.values key subKey)
  subKeys : ∀ key value, Listed (x.subKeys key value)
  contains : ∀ row, Contained (x.contains row)
  /-- At most one item of a scan is an error. It is a damage and the last item. -/
  scan : ∃ rows : List Row, x.scan = rows.map .ok ∨
    ∃ damage, damage.leavesFile = false ∧ x.scan = rows.map .ok ++ [.error (.corrupt damage)]
  validate : Contained x.validate
  verify : Contained x.verify
  /-- No read faults on a machine. -/
  keys_run : Machine.keys x = .lift (.ok x.keys)
  pairs_run : ∀ key, Machine.pairs x key = .lift (x.pairs key)
  values_run : ∀ key subKey, Machine.values x key subKey = .lift (x.values key subKey)
  subKeys_run : ∀ key value, Machine.subKeys x key value = .lift (x.subKeys key value)
  contains_run : ∀ row, Machine.contains x row = .lift (x.contains row)
  scan_run : Machine.scan x = .lift (.ok x.scan)
  validate_run : Machine.validate x = .lift x.validate
  verify_run : Machine.verify x.layout x.data = .lift x.verify

theorem Dictionary.readsSafely_of_opened {d : Dictionary} (h : d.Opened)
    (hsize : d.data.size < limit64) : d.ReadsSafely where
  sections := h.sound.sections
  positions i hi := h.table.entry (by rw [h.table_count]; omega)
  strings i start stop hspan := inBody_of_span h hspan
  outOfRange _ := isOutOfRange_get h hsize
  get _ hid := contained_get h hsize hid
  find _ := contained_findBetween h hsize (Nat.le_refl _)
  items := contained_items h hsize
  validate := contained_validate h hsize
  verify := Layout.contained_verify d.layout d.data
  get_run id := Machine.get_eq_lift h hsize id
  find_run _ := Machine.findBetween_eq_lift h hsize (Nat.le_refl _)
  items_run := Machine.items_eq_lift h hsize
  verify_run := Machine.verify_eq_lift h.sound hsize

theorem TripleIndex.readsSafely_of_opened {x : TripleIndex} (h : x.Opened)
    (hsize : x.data.size < limit64) : x.ReadsSafely where
  sections := h.sound.sections
  positions i hi := h.table.entry (by rw [h.table_count]; omega)
  keyPositions _ hi := h.keys.entry hi
  rowPositions part hpart _ hrow := (h.rows part hpart).entry hrow
  keys := exists_keys h
  pairs := listed_pairs h hsize
  values := listed_values h hsize
  subKeys := listed_subKeys h hsize
  contains := contained_contains h hsize
  scan := scan_eq h hsize
  validate := contained_validate h hsize
  verify := Layout.contained_verify x.layout x.data
  keys_run := Machine.keys_eq_lift h hsize
  pairs_run := Machine.pairs_eq_lift h hsize
  values_run := Machine.values_eq_lift h hsize
  subKeys_run := Machine.subKeys_eq_lift h hsize
  contains_run := Machine.contains_eq_lift h hsize
  scan_run := Machine.scan_eq_lift h hsize
  validate_run := Machine.validate_eq_lift h hsize
  verify_run := Machine.verify_eq_lift h.sound hsize

/-- **Opening any bytes never faults, and what opens can be read safely.** -/
theorem readsSafely_of_ofBytes {data : ByteArray} (hsize : data.size < 2 ^ 63) :
    (Machine.openDictionary data = .lift (Dictionary.ofBytes data) ∧
      ∀ d, Dictionary.ofBytes data = .ok d → d.data = data ∧ d.ReadsSafely) ∧
    Machine.openIndex data = .lift (TripleIndex.ofBytes data) ∧
      ∀ x, TripleIndex.ofBytes data = .ok x → x.data = data ∧ x.ReadsSafely := by
  have hlimit : data.size < limit64 := by
    rw [limit64]
    omega
  refine ⟨⟨Machine.openDictionary_eq_lift hlimit, fun d hopen => ?_⟩,
    Machine.openIndex_eq_lift hlimit, fun x hopen => ?_⟩
  · obtain ⟨rfl, hd⟩ := Dictionary.opened_of_ofBytes hopen
    exact ⟨rfl, Dictionary.readsSafely_of_opened hd hlimit⟩
  · obtain ⟨rfl, hx⟩ := TripleIndex.opened_of_ofBytes hopen
    exact ⟨rfl, TripleIndex.readsSafely_of_opened hx hlimit⟩

/-- A dictionary of one string that starts behind its end. -/
def misplacedStringFile : ByteArray := oneString.file [5, 0, 1, 0, 97] 0

/-- An index of one row whose key owns nine of them. -/
def missingRowsFile : ByteArray :=
  oneRow.file [7, 0, 0, 0, 9, 0, 1, 0, 2, 0, 2, 0, 1, 0] 0

/-- Two files that open although they are damaged, with wrong checksums. -/
theorem readsSafely_of_damaged_files :
    (misplacedStringFile.size < 2 ^ 63 ∧
      ∃ d, Dictionary.ofBytes misplacedStringFile = .ok d ∧
        d.get 1 = .error (.corrupt (.stringSpan 1 5 1 1)) ∧
        d.get 2 = .error (.outOfRange .termId 2 2) ∧
        Machine.openDictionary misplacedStringFile = .lift (.ok d) ∧ d.ReadsSafely) ∧
    missingRowsFile.size < 2 ^ 63 ∧
      ∃ x, TripleIndex.ofBytes missingRowsFile = .ok x ∧ x.keys = [.ok 7] ∧
        x.pairs 7 = .error (.corrupt (.keySpan 0 0 9 1)) ∧
        x.scan = [.error (.corrupt (.keySpan 0 0 9 1))] ∧
        Machine.openIndex missingRowsFile = .lift (.ok x) ∧ x.ReadsSafely := by
  constructor
  · have hsize : misplacedStringFile.size < 2 ^ 63 := by
      rw [size_eq_length_octets, misplacedStringFile, Layout.octets_file]
      decide +kernel
    have hrun : (Dictionary.ofBytes misplacedStringFile).map (fun d => (d.get 1, d.get 2)) =
        .ok (.error (.corrupt (.stringSpan 1 5 1 1)), .error (.outOfRange .termId 2 2)) := by
      simp only [Dictionary.ofBytes, Layout.parse, Layout.disjoint_eq_decide]
      decide +kernel
    obtain ⟨d, hopen, hgets⟩ := map_eq_ok.1 hrun
    obtain ⟨hfirst, hsecond⟩ := Prod.mk.inj hgets
    obtain ⟨⟨hmachine, hsafe⟩, -⟩ := readsSafely_of_ofBytes hsize
    exact ⟨hsize, d, hopen, hfirst, hsecond, hopen ▸ hmachine, (hsafe d hopen).2⟩
  · have hsize : missingRowsFile.size < 2 ^ 63 := by
      rw [size_eq_length_octets, missingRowsFile, Layout.octets_file]
      decide +kernel
    have hrun : (TripleIndex.ofBytes missingRowsFile).map (fun x => (x.keys, x.pairs 7)) =
        .ok ([.ok 7], .error (.corrupt (.keySpan 0 0 9 1))) := by
      simp only [TripleIndex.ofBytes, Layout.parse, Layout.disjoint_eq_decide]
      decide +kernel
    have hlast : (TripleIndex.ofBytes missingRowsFile).map (·.scan) =
        .ok [.error (.corrupt (.keySpan 0 0 9 1))] := by
      simp only [TripleIndex.ofBytes, Layout.parse, Layout.disjoint_eq_decide]
      decide +kernel
    obtain ⟨x, hopen, hreads⟩ := map_eq_ok.1 hrun
    obtain ⟨hkeys, hpairs⟩ := Prod.mk.inj hreads
    have hscan : x.scan = [.error (.corrupt (.keySpan 0 0 9 1))] := by
      rw [hopen] at hlast
      exact Except.ok.inj hlast
    obtain ⟨-, hmachine, hsafe⟩ := readsSafely_of_ofBytes hsize
    exact ⟨hsize, x, hopen, hkeys, hpairs, hscan, hopen ▸ hmachine, (hsafe x hopen).2⟩

end TripleStore
