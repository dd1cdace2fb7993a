import TripleStore.Proofs.Opening
import TripleStore.Proofs.TripleIndex.Answers

/-!
# Indices that pass their checks

The checks of an index read its key directory and both of its row sections once, whoever wrote the
file. In an index that passes, either section holds the rows of groups (`keeps_of_validate`): the
keys ascend strictly, and each owns ascending rows up to the first one of the next key. So the reads
by key answer for the rows that a scan lists, and a read by value answers for the rows by value that
the key owns (`answers_of_validate`), which need not be the rows of the scan.
-/

namespace TripleStore

theorem Pair.lt_eq_false_trans {a b c : Pair} (hab : lt b a = false) (hbc : lt c b = false) :
    lt c a = false := by
  rw [lt_eq_false] at hab hbc ⊢
  simp only [UInt64.lt_iff_toNat_lt, UInt64.le_iff_toNat_le, ← UInt64.toNat_inj] at hab hbc ⊢
  omega

namespace TripleIndex

variable {x : TripleIndex} {groups : List KeyGroup} {part : Section} {kind : SectionKind}
  {key : UInt64} {i row start stop n : Nat} {l : List Pair}

/-! ## The rows of one key -/

/-- Pairs that pass the check are read, and go on in order. -/
theorem exists_of_checkRows {before : Pair}
    (h : x.checkRows part kind key before row n = .ok ()) :
    ∃ l, l.length = n ∧ Pair.Ascending (before :: l) ∧
      ∀ j (hj : j < l.length), x.pairAt part (row + j) = .ok l[j] := by
  induction n generalizing before row with
  | zero => exact ⟨[], rfl, List.pairwise_singleton _ _, by simp⟩
  | succ n ih =>
    obtain ⟨pair, hpair, hrest⟩ := bind_eq_ok.1 h
    obtain ⟨_, hlt, hrest⟩ := bind_eq_ok.1 hrest
    rw [require_eq_ok] at hlt
    obtain ⟨l, rfl, hascending, hreads⟩ := ih hrest
    refine ⟨pair :: l, rfl, List.pairwise_cons.2 ⟨fun p hp => ?_, hascending⟩, fun j hj => ?_⟩
    · rcases List.mem_cons.1 hp with rfl | hp
      · exact hlt
      · exact Pair.lt_eq_false_trans hlt ((List.pairwise_cons.1 hascending).1 p hp)
    · cases j with
      | zero => exact hpair
      | succ j =>
        rw [List.getElem_cons_succ, ← hreads j (by simpa using hj), Nat.add_assoc,
          Nat.add_comm 1]

/-- The pairs of a span that passes the check. -/
theorem exists_of_checkPart (h : x.checkPart part kind key start stop = .ok ())
    (hlt : start < stop) :
    ∃ l, l ≠ [] ∧ start + l.length = stop ∧ Pair.Ascending l ∧
      ∀ j (hj : j < l.length), x.pairAt part (start + j) = .ok l[j] := by
  obtain ⟨first, hfirst, hrest⟩ := bind_eq_ok.1 h
  obtain ⟨l, hl, hascending, hreads⟩ := exists_of_checkRows hrest
  refine ⟨first :: l, by simp, by simp only [List.length_cons]; omega, hascending, fun j hj => ?_⟩
  cases j with
  | zero => exact hfirst
  | succ j =>
    rw [List.getElem_cons_succ, ← hreads j (by simpa using hj), Nat.add_assoc, Nat.add_comm 1]

/-! ## The keys -/

/-- An index keeps the rows of groups from key number `i` on, which starts at row `row`. -/
structure KeepsFrom (x : TripleIndex) (part : Section) (i row : Nat) (groups : List KeyGroup) :
    Prop where
  grouped : Grouped groups
  keyAt : ∀ j (h : j < groups.length), x.keyAt (i + j) = .ok groups[j].key
  offset : ∀ j ≤ groups.length, x.table.offset x.data (i + j) = .ok (row + rowsBefore groups j)
  reads : ∀ r (h : r < (groups.flatMap KeyGroup.rows).length),
    x.pairAt part (row + r) = .ok (groups.flatMap KeyGroup.rows)[r]

theorem keepsFrom_nil (h : x.table.offset x.data i = .ok row) : x.KeepsFrom part i row [] where
  grouped := ⟨by simp, by simp, List.Pairwise.nil⟩
  keyAt j hj := absurd hj (Nat.not_lt_zero j)
  offset j hj := by
    rw [Nat.le_zero.1 hj]
    exact h
  reads r hr := absurd hr (Nat.not_lt_zero r)

/-- The rows of a smaller key stand in front. -/
theorem KeepsFrom.cons (h : x.KeepsFrom part (i + 1) (row + l.length) groups)
    (hkey : x.keyAt i = .ok key) (hoffset : x.table.offset x.data i = .ok row)
    (hless : ∀ g ∈ groups, key < g.key) (hne : l ≠ []) (hascending : Pair.Ascending l)
    (hreads : ∀ j (hj : j < l.length), x.pairAt part (row + j) = .ok l[j]) :
    x.KeepsFrom part i row (⟨key, l⟩ :: groups) where
  grouped := by
    refine ⟨fun g hg => ?_, fun g hg => ?_, List.pairwise_cons.2 ⟨hless, h.grouped.keys⟩⟩
    · rcases List.mem_cons.1 hg with rfl | hg
      · exact hne
      · exact h.grouped.nonempty g hg
    · rcases List.mem_cons.1 hg with rfl | hg
      · exact hascending
      · exact h.grouped.ascending g hg
  keyAt j hj := by
    cases j with
    | zero => exact hkey
    | succ j =>
      rw [List.getElem_cons_succ, ← h.keyAt j (by simpa using hj), Nat.add_assoc, Nat.add_comm 1]
  offset j hj := by
    cases j with
    | zero => exact hoffset
    | succ j =>
      have htail := h.offset j (by simpa using hj)
      rw [Nat.add_assoc, Nat.add_comm 1] at htail
      rw [htail, rowsBefore_cons_succ, Nat.add_assoc]
  reads r hr := by
    have hlength : (List.flatMap KeyGroup.rows (⟨key, l⟩ :: groups)).length =
        l.length + (groups.flatMap KeyGroup.rows).length := by
      rw [List.flatMap_cons, List.length_append]
    simp only [List.flatMap_cons]
    rcases Nat.lt_or_ge r l.length with hlt | hge
    · rw [List.getElem_append_left hlt]
      exact hreads r hlt
    · rw [List.getElem_append_right hge, ← h.reads (r - l.length) (by omega), Nat.add_assoc,
        Nat.add_sub_cancel' hge]

/-- **Keys that pass the check keep groups**, greater than the key before, in either section. -/
theorem exists_groups_of_checkKeys (hpart : x.HoldsRows part) {before : Option UInt64}
    (h : x.checkKeys before i n = .ok ()) (hoffset : x.table.offset x.data i = .ok row) :
    ∃ groups, groups.length = n ∧ x.KeepsFrom part i row groups ∧
      ∀ k ∈ before, ∀ g ∈ groups, k < g.key := by
  induction n generalizing before i row with
  | zero => exact ⟨[], rfl, keepsFrom_nil hoffset, by simp⟩
  | succ n ih =>
    obtain ⟨key, hkey, h₁⟩ := bind_eq_ok.1 h
    obtain ⟨_, hbefore, h₂⟩ := bind_eq_ok.1 h₁
    obtain ⟨⟨start, stop⟩, hspan, h₃⟩ := bind_eq_ok.1 h₂
    obtain ⟨_, hne, h₄⟩ := bind_eq_ok.1 h₃
    obtain ⟨_, hrows, h₅⟩ := bind_eq_ok.1 h₄
    obtain ⟨_, hbyValue, hrest⟩ := bind_eq_ok.1 h₅
    rw [require_eq_ok] at hbefore hne
    obtain ⟨hstart, hstop, hle, -⟩ := keyRows_eq_ok.1 hspan
    obtain rfl : start = row := Except.ok.inj (hstart.symm.trans hoffset)
    have hlt : start < stop := by omega
    obtain ⟨l, hnonempty, rfl, hascending, hreads⟩ :
        ∃ l, l ≠ [] ∧ start + l.length = stop ∧ Pair.Ascending l ∧
          ∀ j (hj : j < l.length), x.pairAt part (start + j) = .ok l[j] := by
      rcases hpart with rfl | rfl
      · exact exists_of_checkPart hrows hlt
      · exact exists_of_checkPart hbyValue hlt
    obtain ⟨groups, rfl, hkeeps, hless⟩ := ih hrest hstop
    have hless : ∀ g ∈ groups, key < g.key := hless key rfl
    refine ⟨⟨key, l⟩ :: groups, rfl,
      hkeeps.cons hkey hoffset hless hnonempty hascending hreads, fun k hk g hg => ?_⟩
    have hlt : k < key := of_decide_eq_true ((Option.all_eq_true _ _).1 hbefore k hk)
    rcases List.mem_cons.1 hg with rfl | hg
    · exact hlt
    · exact UInt64.lt_trans hlt (hless g hg)

/-- **An index that passes its checks keeps groups in either section.** -/
theorem keeps_of_validate (h : x.validate = .ok ()) (hpart : x.HoldsRows part) :
    ∃ groups, x.Keeps part groups := by
  obtain ⟨first, hfirst, h₁⟩ := bind_eq_ok.1 h
  obtain ⟨_, hzero, h₂⟩ := bind_eq_ok.1 h₁
  obtain ⟨last, hlast, h₃⟩ := bind_eq_ok.1 h₂
  obtain ⟨_, hcount, hkeys⟩ := bind_eq_ok.1 h₃
  rw [require_eq_ok] at hzero hcount
  subst hzero hcount
  obtain ⟨groups, hlength, hkeeps, -⟩ := exists_groups_of_checkKeys hpart hkeys hfirst
  have hend := hkeeps.offset groups.length (Nat.le_refl _)
  rw [hlength, Nat.zero_add, hlast, ← hlength, rowsBefore_length, Nat.zero_add] at hend
  refine ⟨groups, hkeeps.grouped, Except.ok.inj hend, hlength.symm, fun i hi => ?_, fun i hi => ?_,
    fun r hr => ?_⟩
  · rw [← hkeeps.keyAt i hi, Nat.zero_add]
  · have hoffset := hkeeps.offset i hi
    rwa [Nat.zero_add, Nat.zero_add] at hoffset
  · rw [← hkeeps.reads r hr, Nat.zero_add]

/-! ## The rows that a key owns -/

/-- What a key owns in a row section: the rows from its first one up to the first one of the next
key. -/
def owned (x : TripleIndex) (part : Section) (key : UInt64) : Results Pair :=
  (List.range x.keyCount).flatMap fun i =>
    match x.keyAt i, x.keyRows i with
    | .ok found, .ok (start, stop) =>
      if found = key then (List.range' start (stop - start)).map (x.pairAt part) else []
    | _, _ => []

theorem pairsOf_append_singleton (groups : List KeyGroup) (g : KeyGroup) (key : UInt64) :
    pairsOf KeyGroup.rows (groups ++ [g]) key =
      pairsOf KeyGroup.rows groups key ++ if g.key = key then g.rows else [] := by
  rw [pairsOf, expand_append, List.filter_append, List.map_append, ← pairsOf, expand_cons, expand,
    List.flatMap_nil, List.append_nil, filter_map_row]
  split
  · rw [List.map_map]
    exact congrArg _ (List.map_id _)
  · rfl

/-- **A key owns the rows of its group.** -/
theorem owned_of_keeps (h : x.Keeps part groups) (key : UInt64) :
    x.owned part key = (pairsOf KeyGroup.rows groups key).map .ok := by
  suffices hprefix : ∀ i ≤ groups.length, (List.range i).flatMap (fun i =>
      match x.keyAt i, x.keyRows i with
      | .ok found, .ok (start, stop) =>
        if found = key then (List.range' start (stop - start)).map (x.pairAt part) else []
      | _, _ => []) = (pairsOf KeyGroup.rows (groups.take i) key).map .ok by
    rw [owned, h.keyCount, hprefix _ (Nat.le_refl _), List.take_length]
  intro i hi
  induction i with
  | zero => rfl
  | succ i ih =>
    have hi : i < groups.length := hi
    have hreads : (List.range' (rowsBefore groups i) groups[i].rows.length).map (x.pairAt part) =
        groups[i].rows.map .ok := by
      refine List.ext_getElem (by simp) fun j hj _ => ?_
      simp only [List.length_map, List.length_range'] at hj
      simp [h.pairAt hi hj]
    rw [List.range_succ, List.flatMap_append, ih (Nat.le_of_lt hi), List.flatMap_singleton,
      List.take_succ_eq_append_getElem hi, pairsOf_append_singleton, List.map_append]
    simp only [h.keyAt i hi, keyRows_of_keeps h hi, Nat.add_sub_cancel_left, hreads]
    split <;> rfl

/-! ## Reads -/

/-- **An index that passes its checks answers by key for the rows that it lists**, whoever wrote its
file. A read by value answers with the sub keys that the value has among the rows by value that the
key owns. -/
theorem answers_of_validate (h : x.validate = .ok ()) :
    ∃ rows, x.AnswersByKey rows ∧
      ∀ key, ∃ pairs : List Pair, x.owned x.valueSection key = pairs.map .ok ∧
        ∀ value, x.subKeys key value =
            .ok (((pairs.filter (·.1 == value)).map (·.2)).map .ok) ∧
          ((pairs.filter (·.1 == value)).map (·.2)).Pairwise (· ≤ ·) := by
  obtain ⟨groups, hrows⟩ := keeps_of_validate h x.holdsRows_rowSection
  obtain ⟨byValue, hbyValue⟩ := keeps_of_validate h x.holdsRows_valueSection
  exact ⟨_, answersByKey_of_keeps hrows, fun key => ⟨_, owned_of_keeps hbyValue key, fun value =>
    ⟨subKeys_of_keeps hbyValue key value, pairwise_map_snd_filter
      (ascending_pairsOf hbyValue.grouped hbyValue.grouped.ascending key) value⟩⟩⟩

/-- An index file that no builder writes: the rows by value of its one key are not its rows, and all
of its checksums are zero. -/
def mismatchedFile : ByteArray :=
  let keys : Section := ⟨Header.size, 2⟩
  let offsets : Section := ⟨keys.stop, 4⟩
  let rows : Section := ⟨offsets.stop, 8⟩
  let byValue : Section := ⟨rows.stop, 8⟩
  let header : Header :=
    { magic := Header.indexMagic
      version := Header.currentVersion
      flags := RoleOrder.spo.tag
      count := 2
      tocStart := UInt64.ofNat byValue.stop
      tocLength := 4
      offsetWidth := 2
      valueWidth := 2
      aux := 0 }
  (header.encode ++ [7, 0, 2, 1, 2, 5, 9, 9, 3, 9, 4].flatMap (digits 2) ++
    TocEntry.encode ⟨.keys, keys, 0⟩ ++ TocEntry.encode ⟨.offsets, offsets, 0⟩ ++
    TocEntry.encode ⟨.rows, rows, 0⟩ ++ TocEntry.encode ⟨.byValue, byValue, 0⟩ ++
    Footer.encode 0).toByteArray

/-- Key 7 has the pairs (1, 2) and (5, 9), and yet value 9 with the sub keys 3 and 4. -/
theorem answers_of_validate_mismatched :
    ∃ x, ofBytes mismatchedFile = .ok x ∧ x.validate = .ok () ∧
      x.pairs 7 = .ok [.ok (1, 2), .ok (5, 9)] ∧ x.subKeys 7 9 = .ok [.ok 3, .ok 4] ∧
      ∃ rows, x.AnswersByKey rows ∧
        ∀ key, ∃ pairs : List Pair, x.owned x.valueSection key = pairs.map .ok ∧
          ∀ value, x.subKeys key value =
              .ok (((pairs.filter (·.1 == value)).map (·.2)).map .ok) ∧
            ((pairs.filter (·.1 == value)).map (·.2)).Pairwise (· ≤ ·) := by
  have hrun : (do
      let x ← ofBytes mismatchedFile
      x.validate
      let pairs ← x.pairs 7
      let subKeys ← x.subKeys 7 9
      return (pairs, subKeys)) = .ok ([.ok (1, 2), .ok (5, 9)], [.ok 3, .ok 4]) := by
    simp only [ofBytes, Layout.parse, Layout.disjoint_eq_decide]
    decide +kernel
  obtain ⟨x, hopen, h₁⟩ := bind_eq_ok.1 hrun
  obtain ⟨_, hvalid, h₂⟩ := bind_eq_ok.1 h₁
  obtain ⟨pairs, hpairs, h₃⟩ := bind_eq_ok.1 h₂
  obtain ⟨subKeys, hsubKeys, h₄⟩ := bind_eq_ok.1 h₃
  obtain ⟨rfl, rfl⟩ := Prod.mk.inj (Except.ok.inj h₄)
  exact ⟨x, hopen, hvalid, hpairs, hsubKeys, answers_of_validate hvalid⟩

end TripleIndex

end TripleStore
