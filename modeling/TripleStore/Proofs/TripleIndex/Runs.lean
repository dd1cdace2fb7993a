import TripleStore.Proofs.Container.Runs
import TripleStore.Proofs.TripleIndex.Safety

/-!
# Reading an index on a machine

An index that opened is read without a fault. The positions of keys and rows are sums and products
that nothing guards; they have 64 bits because the entry they belong to ends inside the file
(`Machine.keyAt_eq_lift`, `Machine.pairAt_eq_lift`). Searches, sequences and checks stay below the
number of keys or rows.
-/

namespace TripleStore.Machine

/-! ## Runs -/

/-- Opens the content of an index file. Sizes are compared by checked products. -/
def openIndex (data : ByteArray) : Machine TripleIndex := do
  let layout ← parse data Header.indexMagic
  let order ← lift (orFail (RoleOrder.ofTag? layout.header.flags) (.corrupt .unknownRoleOrder))
  let valueWidth ← lift layout.valueWidth
  let width ← lift (orFail valueWidth (.corrupt .noIdWidth))
  let keys ← lift (layout.find .keys)
  let rows ← lift (layout.find .rows)
  let byValue ← lift (layout.find .byValue)
  nonzero width.bytes
  lift (require (keys.length % width.bytes = 0) (.corrupt .raggedKeys))
  let keyCount := keys.length / width.bytes
  let count := layout.header.count.toNat
  fits (2 * width.bytes)
  let need := count * (2 * width.bytes)
  lift (require (need < limit64) (.corrupt .rowCountOverflow))
  lift (require (rows.length = need ∧ byValue.length = need)
    (.corrupt (.rowSectionSizes rows.length byValue.length need)))
  lift (require (keyCount = 0 ↔ count = 0) (.corrupt .keysWithoutRows))
  fits (keyCount + 1)
  let table ← lift (layout.offsetTable (keyCount + 1))
  return ⟨data, layout, order, table, width, keys, rows, byValue⟩

/-- Reads key number `i`. -/
def keyAt (x : TripleIndex) (i : Nat) : Machine UInt64 := do
  fits (i * x.width.bytes)
  fits (x.keySection.start + i * x.width.bytes)
  let key ← lift (x.table.value x.data (x.keySection.start + i * x.width.bytes))
  return UInt64.ofNat key

/-- Reads row number `row` of a row section. -/
def pairAt (x : TripleIndex) (part : Section) (row : Nat) : Machine Pair := do
  fits (row * 2)
  fits (row * 2 * x.width.bytes)
  let position := part.start + row * 2 * x.width.bytes
  fits position
  let a ← lift (x.table.value x.data position)
  fits (position + x.width.bytes)
  let b ← lift (x.table.value x.data (position + x.width.bytes))
  return (UInt64.ofNat a, UInt64.ofNat b)

/-- Reads the span of key number `i`. -/
def keyRows (x : TripleIndex) (i : Nat) : Machine (Nat × Nat) := do
  let start ← lift (x.table.offset x.data i)
  fits (i + 1)
  let stop ← lift (x.table.offset x.data (i + 1))
  lift (require (start ≤ stop ∧ stop ≤ x.count) (.corrupt (.keySpan i start stop x.count)))
  return (start, stop)

/-- Looks for a key among the keys from number `lo` up to `hi`. -/
def findKeyBetween (x : TripleIndex) (key : UInt64) (lo hi : Nat) : Machine (Option Nat) :=
  if lo < hi then do
    let mid := lo + (hi - lo) / 2
    fits mid
    let found ← keyAt x mid
    fits (mid + 1)
    match compare found key with
    | .lt => findKeyBetween x key (mid + 1) hi
    | .gt => findKeyBetween x key lo mid
    | .eq => return some mid
  else return none
termination_by hi - lo

/-- Looks for the first row that is not below the point sought. -/
def lowerBound (x : TripleIndex) (part : Section) (below : Pair → Bool) (lo hi : Nat) :
    Machine Nat :=
  if lo < hi then do
    let mid := lo + (hi - lo) / 2
    fits mid
    let pair ← pairAt x part mid
    fits (mid + 1)
    if below pair then lowerBound x part below (mid + 1) hi else lowerBound x part below lo mid
  else return lo
termination_by hi - lo

/-- Reads `n` pairs one after another, up to the first that cannot be read. -/
def pairsFrom (x : TripleIndex) (part : Section) (row : Nat) : Nat → Machine (Results Pair)
  | 0 => return []
  | n + 1 => do
    match ← attempt (pairAt x part row) with
    | .error e => return [.error e]
    | .ok pair =>
      fits (row + 1)
      let rest ← pairsFrom x part (row + 1) n
      return .ok pair :: rest

/-- Reads the pairs of a key to their end. -/
def pairs (x : TripleIndex) (key : UInt64) : Machine (Results Pair) := do
  match ← findKeyBetween x key 0 x.keyCount with
  | none => return []
  | some i =>
    let (start, stop) ← keyRows x i
    pairsFrom x x.rowSection start (stop - start)

/-- Reads the pairs of a key with one lead to their end. -/
def ledBy (x : TripleIndex) (part : Section) (key lead : UInt64) : Machine (Results Pair) := do
  match ← findKeyBetween x key 0 x.keyCount with
  | none => return []
  | some i =>
    let (start, stop) ← keyRows x i
    let row ← lowerBound x part (fun pair => pair.1 < lead) start stop
    let pairs ← pairsFrom x part row (stop - row)
    return pairs.takeWhile fun
      | .ok pair => pair.1 == lead
      | .error _ => true

/-- Reads the values of a key and a sub key. -/
def values (x : TripleIndex) (key subKey : UInt64) : Machine (Results UInt64) := do
  let pairs ← ledBy x x.rowSection key subKey
  return pairs.map (·.map (·.2))

/-- Reads the sub keys of a key and a value. -/
def subKeys (x : TripleIndex) (key value : UInt64) : Machine (Results UInt64) := do
  let pairs ← ledBy x x.valueSection key value
  return pairs.map (·.map (·.2))

/-- Looks a row up. -/
def contains (x : TripleIndex) (row : Row) : Machine Bool := do
  match ← findKeyBetween x row.key 0 x.keyCount with
  | none => return false
  | some i =>
    let (start, stop) ← keyRows x i
    let target := (row.subKey, row.value)
    let found ← lowerBound x x.rowSection (fun pair => Pair.lt pair target) start stop
    if found < stop then
      let pair ← pairAt x x.rowSection found
      return pair == target
    else return false

/-- Reads all keys. -/
def keys (x : TripleIndex) : Machine (Results UInt64) :=
  (List.range x.keyCount).mapM fun i => attempt do
    fits (i + 1)
    keyAt x i

/-- Takes the next `n` rows of a scan as rows of `key`. -/
def scanRows (x : TripleIndex) (key : UInt64) (s : TripleIndex.Scan) :
    Nat → Machine TripleIndex.Scan
  | 0 => return s
  | n + 1 => do
    match ← attempt (pairAt x x.rowSection s.row) with
    | .error e => return s.fail e
    | .ok (subKey, value) =>
      fits (s.row + 1)
      scanRows x key ⟨s.items.push (.ok ⟨key, subKey, value⟩), s.row + 1, s.failed⟩ n

/-- Takes the rows of a scan up to the last one of key number `i`. -/
def scanKey (x : TripleIndex) (s : TripleIndex.Scan) (i : Nat) : Machine TripleIndex.Scan :=
  if s.failed = true ∨ x.count ≤ s.row then return s
  else do
    match ← attempt (keyAt x i) with
    | .error e => return s.fail e
    | .ok key =>
      match ← attempt (keyRows x i) with
      | .error e => return s.fail e
      | .ok (_, stop) =>
        fits (i + 1)
        scanRows x key s (stop - s.row)

/-- Reads all rows. -/
def scan (x : TripleIndex) : Machine (Results Row) := do
  let s ← (List.range x.keyCount).foldlM (scanKey x) ⟨#[], 0, false⟩
  if s.failed = false ∧ s.row < x.count then
    return (s.fail (.corrupt .rowsPastLastKey)).items.toList
  else return s.items.toList

/-- Checks that the `n` pairs from row `row` on continue `before` in order. -/
def checkRows (x : TripleIndex) (part : Section) (kind : SectionKind) (key : UInt64)
    (before : Pair) (row : Nat) : Nat → Machine Unit
  | 0 => return ()
  | n + 1 => do
    let pair ← pairAt x part row
    lift (require (Pair.lt pair before = false) (.corrupt (.rowsUnsorted kind key row)))
    fits (row + 1)
    checkRows x part kind key pair (row + 1) n

/-- Checks that the rows of a span are in order in a row section. -/
def checkPart (x : TripleIndex) (part : Section) (kind : SectionKind) (key : UInt64)
    (start stop : Nat) : Machine Unit := do
  let first ← pairAt x part start
  fits (start + 1)
  checkRows x part kind key first (start + 1) (stop - (start + 1))

/-- Checks the `n` keys from number `i` on and their rows. -/
def checkKeys (x : TripleIndex) (before : Option UInt64) (i : Nat) : Nat → Machine Unit
  | 0 => return ()
  | n + 1 => do
    let key ← keyAt x i
    lift (require (before.all (· < key)) (.corrupt (.keysNotAscending i)))
    let (start, stop) ← keyRows x i
    lift (require (start ≠ stop) (.corrupt (.emptyKey key)))
    checkPart x x.rowSection .rows key start stop
    checkPart x x.valueSection .byValue key start stop
    fits (i + 1)
    checkKeys x (some key) (i + 1) n

/-- Checks keys, spans and rows. -/
def validate (x : TripleIndex) : Machine Unit := do
  let first ← lift (x.table.offset x.data 0)
  lift (require (first = 0) (.corrupt .firstKeyStart))
  let last ← lift (x.table.offset x.data x.keyCount)
  lift (require (last = x.count) (.corrupt (.rowDirectoryEnd last x.count)))
  checkKeys x none 0 x.keyCount

/-! ## No run faults -/

/-- **Opening an index never faults.** -/
theorem openIndex_eq_lift {data : ByteArray} (hsize : data.size < limit64) :
    openIndex data = lift (TripleIndex.ofBytes data) := by
  rw [openIndex, TripleIndex.ofBytes, parse_eq_lift hsize]
  refine lift_bind_congr fun layout hparse => lift_bind_congr fun _ _ => ?_
  refine lift_bind_congr fun _ _ => lift_bind_congr fun width _ => ?_
  refine lift_bind_congr fun keys hkeys => lift_bind_congr fun _ _ => lift_bind_congr fun _ _ => ?_
  have hwidth : 0 < width.bytes ∧ width.bytes ≤ 8 := by
    cases width <;> decide
  have hcount : keys.length / width.bytes + 1 < limit64 := by
    have hstop := ((Layout.sound_of_parse hparse).find hkeys).stop_le
    have := Nat.div_le_self keys.length width.bytes
    simp only [Section.stop, Footer.size] at hstop
    omega
  have hpair : 2 * width.bytes < limit64 := by
    rw [limit64]
    omega
  rw [nonzero_bind (by omega)]
  refine lift_bind_congr fun _ _ => ?_
  rw [fits_bind hpair]
  refine lift_bind_congr fun _ _ => lift_bind_congr fun _ _ => lift_bind_congr fun _ _ => ?_
  rw [fits_bind hcount]
  exact lift_bind_congr fun _ _ => rfl

section

variable {x : TripleIndex} {part : Section} {kind : SectionKind} {key : UInt64}
  {i row n lo hi start stop : Nat} (h : x.Opened) (hsize : x.data.size < limit64)

include h hsize

theorem keyCount_lt : x.keyCount + 1 < limit64 := h.keys.count_lt x.width.bytes_pos hsize

theorem rowCount_lt : x.count + 1 < limit64 :=
  (h.rows _ x.holdsRows_rowSection).count_lt (Nat.mul_pos (by decide) x.width.bytes_pos) hsize

/-- **Reading a key never faults.** -/
theorem keyAt_eq_lift (hi : i < x.keyCount) : keyAt x i = lift (x.keyAt i) := by
  have hposition := (h.keys.entry hi).stop_le
  rw [keyAt, fits_bind (by omega), fits_bind (by omega), TripleIndex.keyAt]
  cases x.table.value x.data (x.keySection.start + i * x.width.bytes) <;> rfl

/-- **Reading a row never faults.** -/
theorem pairAt_eq_lift (hpart : x.HoldsRows part) (hrow : row < x.count) :
    pairAt x part row = lift (x.pairAt part row) := by
  have hposition := ((h.rows part hpart).entry hrow).stop_le
  have hdouble : row * 2 * 1 ≤ row * 2 * x.width.bytes :=
    Nat.mul_le_mul_left _ x.width.bytes_pos
  rw [← Nat.mul_assoc] at hposition
  simp only [pairAt, TripleIndex.pairAt, ← Nat.mul_assoc]
  rw [fits_bind (by omega), fits_bind (by omega), fits_bind (by omega)]
  refine lift_bind_congr fun a _ => ?_
  rw [fits_bind (by omega)]
  exact lift_bind_congr fun _ _ => rfl

theorem keyRows_eq_lift (hi : i < x.keyCount) : keyRows x i = lift (x.keyRows i) := by
  have hcount := keyCount_lt h hsize
  rw [keyRows, TripleIndex.keyRows]
  refine lift_bind_congr fun start _ => ?_
  rw [fits_bind (by omega)]
  exact lift_bind_congr fun _ _ => lift_bind_congr fun _ _ => rfl

/-! ### Searches -/

theorem findKeyBetween_eq_lift (hhi : hi ≤ x.keyCount) :
    findKeyBetween x key lo hi = lift (x.findKeyBetween key lo hi) := by
  have hcount := keyCount_lt h hsize
  fun_induction x.findKeyBetween key lo hi with
  | case1 lo hi hlt mid e he =>
    rw [findKeyBetween, if_pos hlt, fits_bind (by omega), keyAt_eq_lift h hsize (by omega), he]
    rfl
  | case2 lo hi hlt mid found hfound hcompare ih =>
    rw [findKeyBetween, if_pos hlt, fits_bind (by omega), keyAt_eq_lift h hsize (by omega), hfound,
      lift_ok_bind, fits_bind (by omega), hcompare]
    exact ih hhi
  | case3 lo hi hlt mid found hfound hcompare ih =>
    rw [findKeyBetween, if_pos hlt, fits_bind (by omega), keyAt_eq_lift h hsize (by omega), hfound,
      lift_ok_bind, fits_bind (by omega), hcompare]
    exact ih (by omega)
  | case4 lo hi hlt mid found hfound hcompare =>
    rw [findKeyBetween, if_pos hlt, fits_bind (by omega), keyAt_eq_lift h hsize (by omega), hfound,
      lift_ok_bind, fits_bind (by omega), hcompare]
    rfl
  | case5 lo hi hlt =>
    rw [findKeyBetween, if_neg hlt]
    rfl

theorem lowerBound_eq_lift (hpart : x.HoldsRows part) (below : Pair → Bool) (hhi : hi ≤ x.count) :
    lowerBound x part below lo hi = lift (x.lowerBound part below lo hi) := by
  have hcount := rowCount_lt h hsize
  fun_induction x.lowerBound part below lo hi with
  | case1 lo hi hlt mid e he =>
    rw [lowerBound, if_pos hlt, fits_bind (by omega), pairAt_eq_lift h hsize hpart (by omega), he]
    rfl
  | case2 lo hi hlt mid pair hpair hbelow ih =>
    rw [lowerBound, if_pos hlt, fits_bind (by omega), pairAt_eq_lift h hsize hpart (by omega),
      hpair, lift_ok_bind, fits_bind (by omega), if_pos hbelow]
    exact ih hhi
  | case3 lo hi hlt mid pair hpair hbelow ih =>
    rw [lowerBound, if_pos hlt, fits_bind (by omega), pairAt_eq_lift h hsize hpart (by omega),
      hpair, lift_ok_bind, fits_bind (by omega), if_neg hbelow]
    exact ih (by omega)
  | case4 lo hi hlt =>
    rw [lowerBound, if_neg hlt]
    rfl

/-! ### Reads by key -/

/-- **Rows are read one after another.** -/
theorem pairsFrom_eq_lift (hpart : x.HoldsRows part) (hn : row + n ≤ x.count) :
    pairsFrom x part row n = lift (.ok (x.pairsFrom part row n)) := by
  have hcount := rowCount_lt h hsize
  induction n generalizing row with
  | zero => rfl
  | succ n ih =>
    have hrest : x.pairsFrom part row (n + 1) =
        untilError (x.pairAt part row :: (List.range' (row + 1) n).map (x.pairAt part)) := rfl
    rw [pairsFrom, pairAt_eq_lift h hsize hpart (by omega), attempt_lift, pure_bind, hrest]
    cases x.pairAt part row with
    | error e => rfl
    | ok pair =>
      change (fits (row + 1) >>= _) = _
      rw [fits_bind (by omega), ih (by omega)]
      rfl

/-- **A read by key never faults** if it does not for any span of rows. -/
theorem byKey_eq_lift {β : Type} {f : Option Nat → Machine β} {f' : Option Nat → Result β}
    {g : Nat × Nat → Machine β} {g' : Nat × Nat → Result β} (hnone : f none = lift (f' none))
    (hsome : ∀ i, f (some i) = keyRows x i >>= g) (hsome' : ∀ i, f' (some i) = x.keyRows i >>= g')
    (hspan : ∀ start stop, start ≤ stop → stop ≤ x.count →
      g (start, stop) = lift (g' (start, stop)))
    (key : UInt64) : findKeyBetween x key 0 x.keyCount >>= f = lift (x.findKey key >>= f') := by
  rw [findKeyBetween_eq_lift h hsize (Nat.le_refl _)]
  obtain ⟨found, hfind, hlt⟩ := TripleIndex.exists_findKey h key
  refine lift_bind_congr fun found' hfound => ?_
  obtain rfl := Except.ok.inj (hfind.symm.trans hfound)
  cases found with
  | none => exact hnone
  | some i =>
    rw [hsome, hsome', keyRows_eq_lift h hsize (hlt i rfl)]
    refine lift_bind_congr fun ⟨start, stop⟩ hrows => ?_
    obtain ⟨-, -, hle, hstop⟩ := TripleIndex.keyRows_eq_ok.1 hrows
    exact hspan start stop hle hstop

theorem pairs_eq_lift (key : UInt64) : pairs x key = lift (x.pairs key) :=
  byKey_eq_lift h hsize rfl (fun _ => rfl) (fun _ => rfl)
    (fun _ _ hle hstop => pairsFrom_eq_lift h hsize x.holdsRows_rowSection (by omega)) key

theorem ledBy_eq_lift (hpart : x.HoldsRows part) (key lead : UInt64) :
    ledBy x part key lead = lift (x.ledBy part key lead) := by
  refine byKey_eq_lift h hsize rfl (fun _ => rfl) (fun _ => rfl) (fun start stop hle hstop => ?_)
    key
  obtain ⟨row, hrow, hlo, hhi⟩ :=
    TripleIndex.exists_lowerBound h hpart (fun pair => pair.1 < lead) hle hstop
  simp only
  rw [lowerBound_eq_lift h hsize hpart _ hstop]
  refine lift_bind_congr fun row' hrow' => ?_
  obtain rfl := Except.ok.inj (hrow.symm.trans hrow')
  rw [pairsFrom_eq_lift h hsize hpart (by omega)]
  rfl

theorem values_eq_lift (key subKey : UInt64) :
    values x key subKey = lift (x.values key subKey) := by
  rw [values, TripleIndex.values, ledBy_eq_lift h hsize x.holdsRows_rowSection]
  cases x.ledBy x.rowSection key subKey <;> rfl

theorem subKeys_eq_lift (key value : UInt64) :
    subKeys x key value = lift (x.subKeys key value) := by
  rw [subKeys, TripleIndex.subKeys, ledBy_eq_lift h hsize x.holdsRows_valueSection]
  cases x.ledBy x.valueSection key value <;> rfl

theorem contains_eq_lift (r : Row) : contains x r = lift (x.contains r) := by
  refine byKey_eq_lift h hsize rfl (fun _ => rfl) (fun _ => rfl) (fun start stop hle hstop => ?_)
    r.key
  obtain ⟨row, hrow, hlo, hhi⟩ := TripleIndex.exists_lowerBound h x.holdsRows_rowSection
    (fun pair => Pair.lt pair (r.subKey, r.value)) hle hstop
  simp only
  rw [lowerBound_eq_lift h hsize x.holdsRows_rowSection _ hstop]
  refine lift_bind_congr fun row' hrow' => ?_
  obtain rfl := Except.ok.inj (hrow.symm.trans hrow')
  split
  · rw [pairAt_eq_lift h hsize x.holdsRows_rowSection (by omega)]
    exact lift_bind_congr fun _ _ => rfl
  · rfl

/-! ### All keys and rows -/

theorem keys_eq_lift : keys x = lift (.ok x.keys) := by
  have hcount := keyCount_lt h hsize
  refine mapM_attempt fun i hi => ?_
  have hi := List.mem_range.1 hi
  rw [fits_bind (by omega), keyAt_eq_lift h hsize hi]

theorem scanRows_eq_lift (s : TripleIndex.Scan) (hn : s.row + n ≤ x.count) :
    scanRows x key s n = lift (.ok (x.scanRows key s n)) := by
  have hcount := rowCount_lt h hsize
  induction n generalizing s with
  | zero => rfl
  | succ n ih =>
    rw [scanRows, TripleIndex.scanRows, pairAt_eq_lift h hsize x.holdsRows_rowSection (by omega),
      attempt_lift, pure_bind]
    cases x.pairAt x.rowSection s.row with
    | error e => rfl
    | ok pair =>
      simp only
      rw [fits_bind (by omega)]
      exact ih _ (by simp only; omega)

theorem scanKey_eq_lift (s : TripleIndex.Scan) (hi : i < x.keyCount) :
    scanKey x s i = lift (.ok (x.scanKey s i)) := by
  have hcount := keyCount_lt h hsize
  rw [scanKey, TripleIndex.scanKey]
  split
  · rfl
  rename_i hgo
  rw [keyAt_eq_lift h hsize hi, attempt_lift, pure_bind]
  cases x.keyAt i with
  | error e => rfl
  | ok key =>
    simp only
    rw [keyRows_eq_lift h hsize hi, attempt_lift, pure_bind]
    cases hrows : x.keyRows i with
    | error e => rfl
    | ok span =>
      obtain ⟨start, stop⟩ := span
      obtain ⟨-, -, -, hstop⟩ := TripleIndex.keyRows_eq_ok.1 hrows
      simp only
      rw [fits_bind (by omega), scanRows_eq_lift h hsize s (by omega)]

theorem foldlM_scanKey_eq_lift {l : List Nat} (hl : ∀ i ∈ l, i < x.keyCount)
    (s : TripleIndex.Scan) : l.foldlM (scanKey x) s = lift (.ok (l.foldl x.scanKey s)) := by
  induction l generalizing s with
  | nil => rfl
  | cons i l ih =>
    rw [List.foldlM_cons, scanKey_eq_lift h hsize s (hl i List.mem_cons_self), lift_ok_bind,
      ih fun j hj => hl j (List.mem_cons_of_mem i hj), List.foldl_cons]

/-- **A scan never faults.** -/
theorem scan_eq_lift : scan x = lift (.ok x.scan) := by
  rw [scan, TripleIndex.scan, foldlM_scanKey_eq_lift h hsize (fun _ hi => List.mem_range.1 hi),
    lift_ok_bind]
  split <;> rfl

/-! ### Checks -/

theorem checkRows_eq_lift (hpart : x.HoldsRows part) (before : Pair) (hn : row + n ≤ x.count) :
    checkRows x part kind key before row n = lift (x.checkRows part kind key before row n) := by
  have hcount := rowCount_lt h hsize
  induction n generalizing before row with
  | zero => rfl
  | succ n ih =>
    rw [checkRows, TripleIndex.checkRows, pairAt_eq_lift h hsize hpart (by omega)]
    refine lift_bind_congr fun pair _ => lift_bind_congr fun _ _ => ?_
    rw [fits_bind (by omega)]
    exact ih pair (by omega)

theorem checkPart_eq_lift (hpart : x.HoldsRows part) (hlt : start < stop) (hstop : stop ≤ x.count) :
    checkPart x part kind key start stop = lift (x.checkPart part kind key start stop) := by
  have hcount := rowCount_lt h hsize
  rw [checkPart, TripleIndex.checkPart, pairAt_eq_lift h hsize hpart (by omega)]
  refine lift_bind_congr fun first _ => ?_
  rw [fits_bind (by omega)]
  exact checkRows_eq_lift h hsize hpart first (by omega)

theorem checkKeys_eq_lift (before : Option UInt64) (hn : i + n ≤ x.keyCount) :
    checkKeys x before i n = lift (x.checkKeys before i n) := by
  have hcount := keyCount_lt h hsize
  induction n generalizing before i with
  | zero => rfl
  | succ n ih =>
    rw [checkKeys, TripleIndex.checkKeys, keyAt_eq_lift h hsize (by omega)]
    refine lift_bind_congr fun key _ => lift_bind_congr fun _ _ => ?_
    rw [keyRows_eq_lift h hsize (by omega)]
    refine lift_bind_congr fun ⟨start, stop⟩ hrows => lift_bind_congr fun _ hne => ?_
    obtain ⟨-, -, hle, hstop⟩ := TripleIndex.keyRows_eq_ok.1 hrows
    rw [require_eq_ok] at hne
    rw [checkPart_eq_lift h hsize x.holdsRows_rowSection (by omega) hstop]
    refine lift_bind_congr fun _ _ => ?_
    rw [checkPart_eq_lift h hsize x.holdsRows_valueSection (by omega) hstop]
    refine lift_bind_congr fun _ _ => ?_
    rw [fits_bind (by omega)]
    exact ih (some key) (by omega)

/-- **The checks of an index never fault.** -/
theorem validate_eq_lift : validate x = lift x.validate := by
  rw [validate, TripleIndex.validate]
  refine lift_bind_congr fun _ _ => lift_bind_congr fun _ _ => lift_bind_congr fun _ _ =>
    lift_bind_congr fun _ _ => ?_
  exact checkKeys_eq_lift h hsize none (by omega)

end

end TripleStore.Machine
