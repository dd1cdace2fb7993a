import TripleStore.Proofs.Opening
import TripleStore.Proofs.TripleIndex.Reads

/-!
# Reading an index safely

An index that opened can be read without any other check, whoever wrote its file. Its sections have
the lengths that its counts imply, so each key and each row is read (`TripleIndex.keyAt_of_lt`,
`TripleIndex.pairAt_of_lt`), a search among keys or rows always answers, and the pairs of a key have
no errors among them. What remains are the spans of the keys, which may be damaged: a read by key
then reports that, and a scan ends with it (`TripleIndex.scan_eq`).
-/

namespace TripleStore

/-- A read answers a sequence without errors, or finds a damage inside the file. -/
inductive Listed {α : Type} : Result (Results α) → Prop
  | ok (l : List α) : Listed (.ok (l.map .ok))
  | corrupt {damage : Damage} (h : damage.leavesFile = false) : Listed (.error (.corrupt damage))

namespace Listed

variable {α β : Type}

theorem map {r : Result (Results α)} (h : Listed r) (g : α → β) :
    Listed (r.map (·.map (·.map g))) := by
  cases h with
  | ok l =>
    have hmap : ((l.map Except.ok : Results α).map (·.map g)) = (l.map g).map .ok := by
      rw [List.map_map, List.map_map]
      rfl
    rw [Except.map, hmap]
    exact .ok _
  | corrupt h => exact .corrupt h

end Listed

namespace TripleIndex

variable {x : TripleIndex} {part : Section} {kind : SectionKind} {key lead : UInt64}
  {i row n lo hi start stop : Nat}

/-! ## Outcomes -/

/-- Reads that all answer are listed. -/
theorem exists_map_ok {α β : Type} {l : List α} {f : α → Result β}
    (h : ∀ a ∈ l, ∃ b, f a = .ok b) : ∃ answers : List β, l.map f = answers.map .ok := by
  induction l with
  | nil => exact ⟨[], rfl⟩
  | cons a l ih =>
    obtain ⟨b, hb⟩ := h a List.mem_cons_self
    obtain ⟨answers, hanswers⟩ := ih fun a' ha' => h a' (List.mem_cons_of_mem a ha')
    exact ⟨b :: answers, by rw [List.map_cons, List.map_cons, hb, hanswers]⟩

/-- How a scan stands: it has listed rows, and it may have ended with a damage. -/
inductive Stands (x : TripleIndex) : Scan → Prop
  | reading (rows : List Row) {row : Nat} (hrow : row ≤ x.count) :
    Stands x ⟨(rows.map .ok).toArray, row, false⟩
  | failed (rows : List Row) (row : Nat) {damage : Damage} (h : damage.leavesFile = false) :
    Stands x ⟨(rows.map Except.ok ++ [Except.error (StoreError.corrupt damage)]).toArray, row, true⟩

/-- A scan that meets a damage has ended. -/
theorem stands_fail (x : TripleIndex) (rows : List Row) (row : Nat) {damage : Damage}
    (h : damage.leavesFile = false) :
    Stands x (Scan.fail ⟨(rows.map .ok).toArray, row, false⟩ (.corrupt damage)) := by
  rw [Scan.fail, List.push_toArray]
  exact .failed rows row h

section

variable (h : x.Opened)

include h

/-- **Every key is read.** -/
theorem keyAt_of_lt (hi : i < x.keyCount) : ∃ key, x.keyAt i = .ok key := by
  have hstop := (h.keys.entry hi).stop_le
  rw [keyAt, OffsetTable.value_eq_ok h.table_valueWidth (by omega)]
  exact ⟨_, rfl⟩

/-- **Every row is read**, in either section. -/
theorem pairAt_of_lt (hpart : x.HoldsRows part) (hrow : row < x.count) :
    ∃ pair, x.pairAt part row = .ok pair := by
  have hstop := ((h.rows part hpart).entry hrow).stop_le
  rw [pairAt, OffsetTable.value_eq_ok h.table_valueWidth (by omega),
    OffsetTable.value_eq_ok h.table_valueWidth (by omega)]
  exact ⟨_, rfl⟩

/-- All keys are listed. -/
theorem exists_keys : ∃ l : List UInt64, x.keys = l.map .ok :=
  exists_map_ok fun _ hi => keyAt_of_lt h (List.mem_range.1 hi)

/-- **A search among the keys answers.** -/
theorem exists_findKeyBetween (hhi : hi ≤ x.keyCount) :
    ∃ found, x.findKeyBetween key lo hi = .ok found ∧ ∀ i ∈ found, i < x.keyCount := by
  fun_induction x.findKeyBetween key lo hi with
  | case1 lo hi hlt mid e he =>
    obtain ⟨found, hfound⟩ := keyAt_of_lt h (i := mid) (by omega)
    rw [he] at hfound
    cases hfound
  | case2 lo hi hlt mid found hfound hcompare ih => exact ih hhi
  | case3 lo hi hlt mid found hfound hcompare ih => exact ih (by omega)
  | case4 lo hi hlt mid found hfound hcompare =>
    refine ⟨some mid, rfl, fun i hi => ?_⟩
    obtain rfl := Option.some.inj hi
    omega
  | case5 lo hi hlt => exact ⟨none, rfl, by simp⟩

theorem exists_findKey (key : UInt64) :
    ∃ found, x.findKey key = .ok found ∧ ∀ i ∈ found, i < x.keyCount :=
  exists_findKeyBetween h (Nat.le_refl _)

/-- **A search among rows answers**, with a row of its range or the one behind. -/
theorem exists_lowerBound (hpart : x.HoldsRows part) (below : Pair → Bool) (hle : lo ≤ hi)
    (hhi : hi ≤ x.count) :
    ∃ row, x.lowerBound part below lo hi = .ok row ∧ lo ≤ row ∧ row ≤ hi := by
  fun_induction x.lowerBound part below lo hi with
  | case1 lo hi hlt mid e he =>
    have hmid : mid < x.count := by omega
    obtain ⟨pair, hpair⟩ := pairAt_of_lt h hpart hmid
    rw [he] at hpair
    cases hpair
  | case2 lo hi hlt mid pair hpair hbelow ih =>
    obtain ⟨row, hrow, hlo, hhi⟩ := ih (by omega) hhi
    exact ⟨row, hrow, by omega, hhi⟩
  | case3 lo hi hlt mid pair hpair hbelow ih =>
    obtain ⟨row, hrow, hlo, hhi⟩ := ih (by omega) (by omega)
    exact ⟨row, hrow, hlo, by omega⟩
  | case4 lo hi hlt => exact ⟨lo, rfl, Nat.le_refl _, hle⟩

/-- Rows one after another are listed. -/
theorem exists_pairsFrom (hpart : x.HoldsRows part) (hn : row + n ≤ x.count) :
    ∃ l : List Pair, x.pairsFrom part row n = l.map .ok := by
  obtain ⟨l, hl⟩ := exists_map_ok (l := List.range' row n) (f := x.pairAt part) fun r hr =>
    pairAt_of_lt h hpart (by rw [List.mem_range'_1] at hr; omega)
  exact ⟨l, by rw [pairsFrom, hl, untilError_map_ok]⟩

end

section

variable (h : x.Opened) (hsize : x.data.size < limit64)

include h hsize

theorem contained_offset (hi : i ≤ x.keyCount) : Contained (x.table.offset x.data i) :=
  OffsetTable.contained_offset h.table hsize (by rw [h.table_count]; omega)

theorem contained_keyRows (hi : i < x.keyCount) : Contained (x.keyRows i) :=
  (contained_offset h hsize (Nat.le_of_lt hi)).bind fun _ _ =>
    (contained_offset h hsize hi).bind fun _ _ => (Contained.require _ rfl).bind fun _ _ => .ok _

/-- **A read by key ends well** if it does for every span of rows, and if damage is a good end. -/
theorem byKey {β : Type} {P : Result β → Prop} {f : Option Nat → Result β}
    {g : Nat × Nat → Result β}
    (hcorrupt : ∀ damage, damage.leavesFile = false → P (.error (.corrupt damage)))
    (hnone : P (f none)) (hsome : ∀ i, f (some i) = x.keyRows i >>= g)
    (hspan : ∀ start stop, start ≤ stop → stop ≤ x.count → P (g (start, stop))) (key : UInt64) :
    P (x.findKey key >>= f) := by
  obtain ⟨found, hfind, hlt⟩ := exists_findKey h key
  rw [hfind]
  cases found with
  | none => exact hnone
  | some i =>
    change P (f (some i))
    have hcontained := contained_keyRows h hsize (hlt i rfl)
    rw [hsome]
    cases hrows : x.keyRows i with
    | error e =>
      obtain ⟨damage, rfl, hdamage⟩ := hcontained.eq_corrupt hrows
      exact hcorrupt damage hdamage
    | ok span =>
      obtain ⟨start, stop⟩ := span
      obtain ⟨-, -, hle, hstop⟩ := keyRows_eq_ok.1 hrows
      exact hspan start stop hle hstop

/-- **The pairs of a key are listed**, if its span is not damaged. -/
theorem listed_pairs (key : UInt64) : Listed (x.pairs key) := by
  refine byKey h hsize (fun _ => .corrupt) (.ok []) (fun _ => rfl) (fun start stop hle hstop => ?_)
    key
  have hspan : start + (stop - start) ≤ x.count := by omega
  obtain ⟨l, hl⟩ := exists_pairsFrom h x.holdsRows_rowSection hspan
  change Listed (.ok (x.pairsFrom x.rowSection start (stop - start)))
  rw [hl]
  exact .ok l

theorem listed_ledBy (hpart : x.HoldsRows part) (key lead : UInt64) :
    Listed (x.ledBy part key lead) := by
  refine byKey h hsize (fun _ => .corrupt) (.ok []) (fun _ => rfl) (fun start stop hle hstop => ?_)
    key
  obtain ⟨row, hrow, hlo, hhi⟩ := exists_lowerBound h hpart (fun pair => pair.1 < lead) hle hstop
  have hspan : row + (stop - row) ≤ x.count := by omega
  obtain ⟨l, hl⟩ := exists_pairsFrom h hpart hspan
  simp only [hrow, hl, bind, Except.bind, pure, Except.pure, List.takeWhile_map]
  exact .ok _

theorem listed_values (key subKey : UInt64) : Listed (x.values key subKey) :=
  (listed_ledBy h hsize x.holdsRows_rowSection key subKey).map _

theorem listed_subKeys (key value : UInt64) : Listed (x.subKeys key value) :=
  (listed_ledBy h hsize x.holdsRows_valueSection key value).map _

theorem contained_contains (r : Row) : Contained (x.contains r) := by
  refine byKey h hsize (fun _ => .corrupt) (.ok false) (fun _ => rfl)
    (fun start stop hle hstop => ?_) r.key
  obtain ⟨row, hrow, hlo, hhi⟩ := exists_lowerBound h x.holdsRows_rowSection
    (fun pair => Pair.lt pair (r.subKey, r.value)) hle hstop
  simp only [hrow, bind, Except.bind, pure, Except.pure]
  split
  · have hlt : row < x.count := by omega
    obtain ⟨pair, hpair⟩ := pairAt_of_lt h x.holdsRows_rowSection hlt
    rw [hpair]
    exact .ok _
  · exact .ok _

/-! ### Scans -/

omit hsize in
/-- The rows of a key are listed one after another. -/
theorem exists_scanRows (key : UInt64) (rows : List Row) (hn : row + n ≤ x.count) :
    ∃ rows' : List Row, x.scanRows key ⟨(rows.map .ok).toArray, row, false⟩ n =
      ⟨(rows'.map .ok).toArray, row + n, false⟩ := by
  induction n generalizing rows row with
  | zero => exact ⟨rows, rfl⟩
  | succ n ih =>
    have hlt : row < x.count := by omega
    have hrest : row + 1 + n ≤ x.count := by omega
    obtain ⟨⟨subKey, value⟩, hpair⟩ := pairAt_of_lt h x.holdsRows_rowSection hlt
    obtain ⟨rows', hrows'⟩ := ih (rows ++ [⟨key, subKey, value⟩]) hrest
    refine ⟨rows', ?_⟩
    rw [scanRows, hpair]
    simp only [List.push_toArray]
    rw [List.map_append, List.map_singleton] at hrows'
    rw [hrows', Nat.add_assoc, Nat.add_comm 1]

/-- **A scan takes the rows of a key, or ends with the damage of its span.** -/
theorem stands_scanKey {s : Scan} (hs : Stands x s) (hi : i < x.keyCount) :
    Stands x (x.scanKey s i) := by
  rw [scanKey]
  split
  · exact hs
  rename_i hgo
  cases hs with
  | failed rows row hdamage => exact absurd (.inl rfl) hgo
  | @reading rows row hrow =>
    obtain ⟨key, hkey⟩ := keyAt_of_lt h hi
    have hspan := contained_keyRows h hsize hi
    rw [hkey]
    simp only
    cases hkeyRows : x.keyRows i with
    | error e =>
      obtain ⟨damage, rfl, hdamage⟩ := hspan.eq_corrupt hkeyRows
      exact stands_fail x rows _ hdamage
    | ok span =>
      obtain ⟨start, stop⟩ := span
      obtain ⟨-, -, -, hstop⟩ := keyRows_eq_ok.1 hkeyRows
      have hrest : row + (stop - row) ≤ x.count := by omega
      obtain ⟨rows', hrows'⟩ := exists_scanRows h key rows hrest
      simp only [hrows']
      exact .reading rows' (by omega)

theorem stands_foldl {l : List Nat} (hl : ∀ i ∈ l, i < x.keyCount) {s : Scan} (hs : Stands x s) :
    Stands x (l.foldl x.scanKey s) := by
  induction l generalizing s with
  | nil => exact hs
  | cons i l ih =>
    exact ih (fun j hj => hl j (List.mem_cons_of_mem i hj))
      (stands_scanKey h hsize hs (hl i List.mem_cons_self))

/-- **A scan lists rows, and if it meets a damage, that is its last item.** -/
theorem scan_eq : ∃ rows : List Row, x.scan = rows.map .ok ∨
    ∃ damage, damage.leavesFile = false ∧
      x.scan = rows.map .ok ++ [.error (.corrupt damage)] := by
  have hstands := stands_foldl h hsize (l := List.range x.keyCount)
    (fun _ hi => List.mem_range.1 hi) (.reading [] (Nat.zero_le _))
  rw [scan]
  change Stands x ((List.range x.keyCount).foldl x.scanKey ⟨#[], 0, false⟩) at hstands
  revert hstands
  generalize (List.range x.keyCount).foldl x.scanKey ⟨#[], 0, false⟩ = s
  rintro (⟨rows, hrow⟩ | ⟨rows, row, hdamage⟩)
  · simp only [true_and]
    split
    · exact ⟨rows, .inr ⟨_, rfl, by rw [Scan.fail, List.push_toArray]⟩⟩
    · exact ⟨rows, .inl rfl⟩
  · exact ⟨rows, .inr ⟨_, hdamage, rfl⟩⟩

/-! ### Checks -/

omit hsize in
theorem contained_checkRows (hpart : x.HoldsRows part) (before : Pair) (hn : row + n ≤ x.count) :
    Contained (x.checkRows part kind key before row n) := by
  induction n generalizing before row with
  | zero => exact .ok ()
  | succ n ih =>
    have hlt : row < x.count := by omega
    exact (Contained.of_exists (pairAt_of_lt h hpart hlt)).bind fun _ _ =>
      (Contained.require _ rfl).bind fun _ _ => ih _ (by omega)

omit hsize in
theorem contained_checkPart (hpart : x.HoldsRows part) (hlt : start < stop)
    (hstop : stop ≤ x.count) : Contained (x.checkPart part kind key start stop) := by
  have hstart : start < x.count := by omega
  exact (Contained.of_exists (pairAt_of_lt h hpart hstart)).bind fun _ _ =>
    contained_checkRows h hpart _ (by omega)

theorem contained_checkKeys (before : Option UInt64) (hn : i + n ≤ x.keyCount) :
    Contained (x.checkKeys before i n) := by
  induction n generalizing before i with
  | zero => exact .ok ()
  | succ n ih =>
    have hi : i < x.keyCount := by omega
    refine (Contained.of_exists (keyAt_of_lt h hi)).bind fun _ _ =>
      (Contained.require _ rfl).bind fun _ _ => ?_
    refine (contained_keyRows h hsize (by omega)).bind fun ⟨start, stop⟩ hspan => ?_
    obtain ⟨-, -, hle, hstop⟩ := keyRows_eq_ok.1 hspan
    refine (Contained.require _ rfl).bind fun _ hne => ?_
    rw [require_eq_ok] at hne
    exact (contained_checkPart h x.holdsRows_rowSection (by omega) hstop).bind fun _ _ =>
      (contained_checkPart h x.holdsRows_valueSection (by omega) hstop).bind fun _ _ =>
        ih _ (by omega)

theorem contained_validate : Contained x.validate :=
  (contained_offset h hsize (Nat.zero_le _)).bind fun _ _ =>
    (Contained.require _ rfl).bind fun _ _ =>
      (contained_offset h hsize (Nat.le_refl _)).bind fun _ _ =>
        (Contained.require _ rfl).bind fun _ _ => contained_checkKeys h hsize _ (by omega)

end

end TripleIndex

end TripleStore
