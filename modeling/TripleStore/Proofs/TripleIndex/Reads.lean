import Mathlib.Data.List.TakeWhile
import TripleStore.Proofs.TripleIndex.Groups

/-!
# Reading an index

An index keeps groups of rows in one of its row sections if its keys, the first row of each key and
that section are theirs (`TripleIndex.Keeps`). Then every read of the section answers what a search
through all of its rows would: the rows of a key, those of a key with one lead, a single row, all
rows. An index holds groups if it keeps them in both sections, by value in one
(`TripleIndex.Holds`).
-/

namespace TripleStore

/-! ## Ascending pairs -/

namespace Pair

variable {l : List Pair}

/-- Going down from a pair leads to pairs that are below whatever it is below. -/
theorem lt_of_lt_eq_false {a b target : Pair} (hab : lt b a = false) (hb : lt b target = true) :
    lt a target = true := by
  rw [lt_eq_false] at hab
  simp only [lt, Bool.or_eq_true, Bool.and_eq_true, decide_eq_true_eq, beq_iff_eq,
    UInt64.lt_iff_toNat_lt, UInt64.le_iff_toNat_le, ← UInt64.toNat_inj] at hab hb ⊢
  omega

theorem Ascending.leads (h : Ascending l) : l.Pairwise fun a b => a.1 ≤ b.1 :=
  h.imp fun hab => by
    rw [lt_eq_false] at hab
    simp only [UInt64.lt_iff_toNat_lt, UInt64.le_iff_toNat_le, ← UInt64.toNat_inj] at hab ⊢
    omega

theorem lt_self (a : Pair) : lt a a = false := lt_eq_false.2 (.inr ⟨rfl, UInt64.le_refl _⟩)

theorem eq_of_lt_eq_false {a b : Pair} (hab : lt b a = false) (hba : lt a b = false) : a = b := by
  rw [lt_eq_false] at hab hba
  simp only [UInt64.lt_iff_toNat_lt, UInt64.le_iff_toNat_le, ← UInt64.toNat_inj] at hab hba
  exact Prod.ext (UInt64.toNat_inj.1 (by omega)) (UInt64.toNat_inj.1 (by omega))

/-- Among ascending pairs those with one lead stand together. -/
theorem takeWhile_dropWhile_eq_filter (h : l.Pairwise fun a b => a.1 ≤ b.1) (lead : UInt64) :
    (l.dropWhile fun p => p.1 < lead).takeWhile (fun p => p.1 == lead) =
      l.filter (fun p => p.1 == lead) := by
  induction l with
  | nil => rfl
  | cons a l ih =>
    obtain ⟨ha, hl⟩ := List.pairwise_cons.1 h
    by_cases hlt : a.1 < lead
    · rw [List.dropWhile_cons_of_pos (by simpa using hlt),
        List.filter_cons_of_neg (by simpa using UInt64.ne_of_lt hlt), ih hl]
    have hnot : ∀ b ∈ l, ¬ b.1 < lead := fun b hb hb' =>
      hlt (UInt64.lt_of_le_of_lt (ha b hb) hb')
    rw [List.dropWhile_cons_of_neg (by simpa using hlt)]
    by_cases heq : a.1 = lead
    · have hstay : l.dropWhile (fun p => p.1 < lead) = l :=
        List.dropWhile_eq_self_iff.2 fun hlen => by simpa using hnot _ (List.getElem_mem hlen)
      rw [List.takeWhile_cons_of_pos (by simpa using heq),
        List.filter_cons_of_pos (by simpa using heq), ← ih hl, hstay]
    · rw [List.takeWhile_cons_of_neg (by simpa using heq),
        List.filter_cons_of_neg (by simpa using heq), eq_comm, List.filter_eq_nil_iff]
      intro b hb hlead
      obtain rfl : b.1 = lead := by simpa using hlead
      exact heq (UInt64.le_antisymm (ha b hb) (UInt64.not_lt.1 hlt))

/-- The first pair that is not below a target is the target if that is there at all. -/
theorem head?_dropWhile_eq_iff (h : Ascending l) (target : Pair) :
    (l.dropWhile (lt · target)).head? = some target ↔ target ∈ l := by
  induction l with
  | nil => simp
  | cons a l ih =>
    obtain ⟨ha, hl⟩ := List.pairwise_cons.1 h
    cases hlt : lt a target with
    | true =>
      have hne : target ≠ a := by
        rintro rfl
        rw [lt_self] at hlt
        cases hlt
      rw [List.dropWhile_cons_of_pos (by simpa using hlt), ih hl, List.mem_cons, or_iff_right hne]
    | false =>
      rw [List.dropWhile_cons_of_neg (by simp [hlt]), List.head?_cons, Option.some_inj]
      constructor
      · rintro rfl
        exact List.mem_cons_self
      · intro hmem
        rcases List.mem_cons.1 hmem with rfl | hmem
        · rfl
        · exact eq_of_lt_eq_false (ha target hmem) hlt

end Pair

/-! ## What an index holds -/

namespace TripleIndex

/-- The rows of a section of an index. -/
def Reads (x : TripleIndex) (part : Section) (l : List Pair) : Prop :=
  ∀ r (h : r < l.length), x.pairAt part r = .ok l[r]

/-- An index holds the rows of groups. -/
structure Holds (x : TripleIndex) (groups : List KeyGroup) : Prop where
  grouped : Grouped groups
  count : x.count = (groups.flatMap KeyGroup.rows).length
  keyCount : x.keyCount = groups.length
  keyAt : ∀ i (h : i < groups.length), x.keyAt i = .ok groups[i].key
  offset : ∀ i ≤ groups.length, x.table.offset x.data i = .ok (rowsBefore groups i)
  rows : x.Reads x.rowSection (groups.flatMap KeyGroup.rows)
  byValue : x.Reads x.valueSection (groups.flatMap KeyGroup.byValue)

/-- An index keeps the rows of groups in one of its row sections. -/
structure Keeps (x : TripleIndex) (part : Section) (groups : List KeyGroup) : Prop where
  grouped : Grouped groups
  count : x.count = (groups.flatMap KeyGroup.rows).length
  keyCount : x.keyCount = groups.length
  keyAt : ∀ i (h : i < groups.length), x.keyAt i = .ok groups[i].key
  offset : ∀ i ≤ groups.length, x.table.offset x.data i = .ok (rowsBefore groups i)
  reads : x.Reads part (groups.flatMap KeyGroup.rows)

variable {x : TripleIndex} {groups : List KeyGroup} {part : Section} {l : List Pair}

/-- A sequence without errors is read to its end. -/
theorem untilError_map_ok {α : Type} (l : List α) : untilError (l.map Except.ok) = l.map .ok := by
  have htake : (l.map (Except.ok : α → Result α)).takeWhile (·.isOk) = l.map .ok :=
    List.takeWhile_eq_self_iff.2 fun r hr => by
      obtain ⟨a, -, rfl⟩ := List.mem_map.1 hr
      rfl
  have hdrop : (l.map (Except.ok : α → Result α)).dropWhile (·.isOk) = [] :=
    List.dropWhile_eq_nil_iff.2 fun r hr => by
      obtain ⟨a, -, rfl⟩ := List.mem_map.1 hr
      rfl
  rw [untilError, htake, hdrop]
  exact List.append_nil _

theorem Reads.pairsFrom (h : x.Reads part l) {start n : Nat} (hn : start + n ≤ l.length) :
    x.pairsFrom part start n = ((l.drop start).take n).map .ok := by
  have hmap : (List.range' start n).map (x.pairAt part) =
      ((l.drop start).take n).map Except.ok := by
    refine List.ext_getElem (by simp; omega) fun i hi hi' => ?_
    simp only [List.length_map, List.length_range'] at hi
    simp [h (start + i) (by omega)]
  rw [TripleIndex.pairsFrom, hmap, untilError_map_ok]

/-! ## Finding a key -/

variable {key : UInt64} {lo hi : Nat}

/-- A key is found where it is, and not found if it is nowhere. -/
def FindsKey (groups : List KeyGroup) (key : UInt64) (found : Result (Option Nat)) : Prop :=
  (∃ i, ∃ h : i < groups.length, groups[i].key = key ∧ found = .ok (some i)) ∨
    (∀ g ∈ groups, g.key ≠ key) ∧ found = .ok none

/-- The search keeps all smaller keys before its range and all greater ones behind it. -/
theorem findKeyBetween_of_keeps (h : x.Keeps part groups) (hhi : hi ≤ groups.length)
    (hbefore : ∀ i (hi : i < groups.length), i < lo → groups[i].key < key)
    (hbehind : ∀ i (h : i < groups.length), hi ≤ i → key < groups[i].key) :
    FindsKey groups key (x.findKeyBetween key lo hi) := by
  fun_induction x.findKeyBetween key lo hi with
  | case1 lo hi hlt mid e he =>
    rw [h.keyAt mid (by omega)] at he
    cases he
  | case2 lo hi hlt mid found hfound hcompare ih =>
    rw [h.keyAt mid (by omega)] at hfound
    obtain rfl := Except.ok.inj hfound
    refine ih hhi (fun i hi hmid => ?_) hbehind
    have hfound : groups[mid].key < key := Std.compare_eq_lt.1 hcompare
    rcases Nat.lt_or_eq_of_le (Nat.le_of_lt_succ hmid) with hmid | rfl
    · exact UInt64.lt_trans (h.grouped.key_lt _ hmid) hfound
    · exact hfound
  | case3 lo hi hlt mid found hfound hcompare ih =>
    rw [h.keyAt mid (by omega)] at hfound
    obtain rfl := Except.ok.inj hfound
    refine ih (by omega) hbefore fun i hi hmid => ?_
    have hfound : key < groups[mid].key := Std.compare_eq_gt.1 hcompare
    rcases Nat.lt_or_eq_of_le hmid with hmid | rfl
    · exact UInt64.lt_trans hfound (h.grouped.key_lt hi hmid)
    · exact hfound
  | case4 lo hi hlt mid found hfound hcompare =>
    rw [h.keyAt mid (by omega)] at hfound
    obtain rfl := Except.ok.inj hfound
    exact .inl ⟨mid, by omega, Std.LawfulEqOrd.compare_eq_iff_eq.1 hcompare, rfl⟩
  | case5 lo hi hlt =>
    refine .inr ⟨fun g hg => ?_, rfl⟩
    obtain ⟨i, hi, rfl⟩ := List.getElem_of_mem hg
    rcases Nat.lt_or_ge i lo with hlo | hlo
    · exact UInt64.ne_of_lt (hbefore i hi hlo)
    · exact (UInt64.ne_of_lt (hbehind i hi (by omega))).symm

theorem findKey_of_keeps (h : x.Keeps part groups) (key : UInt64) :
    FindsKey groups key (x.findKey key) :=
  findKeyBetween_of_keeps h (by rw [h.keyCount]) (fun _ _ h => absurd h (Nat.not_lt_zero _))
    fun i hi hle => absurd hi (by rw [h.keyCount] at hle; omega)

/-- A span that is answered lies among the rows. -/
theorem keyRows_eq_ok {i start stop : Nat} : x.keyRows i = .ok (start, stop) ↔
    x.table.offset x.data i = .ok start ∧ x.table.offset x.data (i + 1) = .ok stop ∧
      start ≤ stop ∧ stop ≤ x.count := by
  simp only [keyRows, bind_eq_ok, require_eq_ok]
  constructor
  · rintro ⟨a, ha, b, hb, _, hle, hpair⟩
    obtain ⟨rfl, rfl⟩ := Prod.mk.inj (Except.ok.inj hpair)
    exact ⟨ha, hb, hle⟩
  · rintro ⟨hstart, hstop, hle⟩
    exact ⟨start, hstart, stop, hstop, (), hle, rfl⟩

theorem keyRows_of_keeps (h : x.Keeps part groups) {i : Nat} (hi : i < groups.length) :
    x.keyRows i = .ok (rowsBefore groups i, rowsBefore groups i + groups[i].rows.length) := by
  have hstop := rowsBefore_le groups (i + 1)
  rw [← rowsBefore_succ hi, keyRows]
  refine bind_eq_ok.2 ⟨_, h.offset i (by omega), bind_eq_ok.2 ⟨_, h.offset (i + 1) (by omega),
    bind_eq_ok.2 ⟨(), require_eq_ok.2 ⟨?_, by rwa [h.count]⟩, rfl⟩⟩⟩
  rw [rowsBefore_succ hi]
  omega

/-! ## The rows of a key -/

theorem Holds.keeps_rows (h : x.Holds groups) : x.Keeps x.rowSection groups :=
  ⟨h.grouped, h.count, h.keyCount, h.keyAt, h.offset, h.rows⟩

theorem Holds.keeps_byValue (h : x.Holds groups) :
    x.Keeps x.valueSection (groups.map KeyGroup.turned) where
  grouped := h.grouped.turned
  count := by
    rw [flatMap_rows_turned, length_flatMap_part KeyGroup.length_byValue, h.count]
  keyCount := by rw [h.keyCount, List.length_map]
  keyAt i hi := by
    rw [h.keyAt i (by simpa using hi), List.getElem_map]
    rfl
  offset i hi := by
    rw [rowsBefore_turned]
    exact h.offset i (by simpa using hi)
  reads := by
    rw [flatMap_rows_turned]
    exact h.byValue

/-- A row of a group is read behind the rows before it. -/
theorem Keeps.pairAt (h : x.Keeps part groups) {i j : Nat} (hi : i < groups.length)
    (hj : j < groups[i].rows.length) :
    x.pairAt part (rowsBefore groups i + j) = .ok groups[i].rows[j] := by
  have hstop := rowsBefore_add_le hi
  have hget : (groups.flatMap KeyGroup.rows)[rowsBefore groups i + j]? =
      some groups[i].rows[j] := by
    rw [← List.getElem?_eq_getElem hj]
    conv_rhs => rw [← drop_take_flatMap (fun _ => rfl) hi]
    rw [List.getElem?_take_of_lt (by omega), List.getElem?_drop]
  rw [h.reads _ (by omega)]
  rw [List.getElem?_eq_getElem (by omega)] at hget
  rw [Option.some.inj hget]

/-- The rest of the rows of a group, from one of them on. -/
theorem Keeps.pairsFrom (h : x.Keeps part groups) {i k : Nat} (hi : i < groups.length)
    (hk : k ≤ groups[i].rows.length) :
    x.pairsFrom part (rowsBefore groups i + k)
        (rowsBefore groups i + groups[i].rows.length - (rowsBefore groups i + k)) =
      (groups[i].rows.drop k).map .ok := by
  have hstop := rowsBefore_add_le hi
  rw [h.reads.pairsFrom (by omega)]
  conv_rhs => rw [← drop_take_flatMap (fun _ => rfl) hi]
  rw [List.drop_take, List.drop_drop, Nat.add_sub_add_left]

/-- In a list that starts with what is below a point, `takeWhile` counts that. -/
theorem lt_length_takeWhile_iff {α : Type} {below : α → Bool} {l : List α}
    (h : l.Pairwise fun a b => below b = true → below a = true) {j : Nat} (hj : j < l.length) :
    below l[j] = true ↔ j < (l.takeWhile below).length := by
  induction l generalizing j with
  | nil => simp at hj
  | cons a l ih =>
    obtain ⟨ha, hl⟩ := List.pairwise_cons.1 h
    cases hbelow : below a with
    | true =>
      rw [List.takeWhile_cons_of_pos hbelow, List.length_cons]
      cases j with
      | zero => simp [hbelow]
      | succ j => rw [List.getElem_cons_succ, ih hl (by simpa using hj), Nat.succ_lt_succ_iff]
    | false =>
      rw [List.takeWhile_cons_of_neg (by simp [hbelow])]
      cases j with
      | zero => simp [hbelow]
      | succ j =>
        have hj : j < l.length := by simpa using hj
        have hnot : below l[j] ≠ true := fun hb => by
          have := ha _ (List.getElem_mem hj) hb
          rw [hbelow] at this
          cases this
        simp [hnot]

/-- **The binary search finds the first row that is not below the point sought.** -/
theorem Keeps.lowerBound (h : x.Keeps part groups) {i : Nat} (hi : i < groups.length)
    {below : Pair → Bool}
    (hmono : groups[i].rows.Pairwise fun a b => below b = true → below a = true) :
    x.lowerBound part below (rowsBefore groups i) (rowsBefore groups i + groups[i].rows.length) =
      .ok (rowsBefore groups i + (groups[i].rows.takeWhile below).length) := by
  have hcount := fun j hj => lt_length_takeWhile_iff hmono (j := j) hj
  have hle : (groups[i].rows.takeWhile below).length ≤ groups[i].rows.length :=
    (List.takeWhile_prefix below).length_le
  generalize hk : (groups[i].rows.takeWhile below).length = k at hcount hle ⊢
  -- the search keeps the answer in its range
  suffices hsearch : ∀ lo hi', rowsBefore groups i ≤ lo → lo ≤ rowsBefore groups i + k →
      rowsBefore groups i + k ≤ hi' → hi' ≤ rowsBefore groups i + groups[i].rows.length →
      x.lowerBound part below lo hi' = .ok (rowsBefore groups i + k) from
    hsearch _ _ (Nat.le_refl _) (by omega) (by omega) (Nat.le_refl _)
  intro lo hi'
  fun_induction x.lowerBound part below lo hi' with
  | case1 lo hi' hlt mid e he =>
    intro hlo _ _ hstop
    have := h.pairAt hi (j := mid - rowsBefore groups i) (by omega)
    rw [Nat.add_sub_cancel' (by omega), he] at this
    cases this
  | case2 lo hi' hlt mid pair hpair hbelow ih =>
    intro hlo _ hup hstop
    have hj : mid - rowsBefore groups i < groups[i].rows.length := by omega
    have hread := h.pairAt hi hj
    rw [Nat.add_sub_cancel' (by omega), hpair] at hread
    obtain rfl := Except.ok.inj hread
    have := (hcount _ hj).1 hbelow
    exact ih (by omega) (by omega) hup hstop
  | case3 lo hi' hlt mid pair hpair hbelow ih =>
    intro hlo _ hup hstop
    have hj : mid - rowsBefore groups i < groups[i].rows.length := by omega
    have hread := h.pairAt hi hj
    rw [Nat.add_sub_cancel' (by omega), hpair] at hread
    obtain rfl := Except.ok.inj hread
    have := mt (hcount _ hj).2 hbelow
    exact ih hlo (by omega) (by omega) (by omega)
  | case4 lo hi' hlt =>
    intro _ hlo hup _
    rw [show lo = rowsBefore groups i + k by omega]

/-! ## The reads of a key -/

/-- **The pairs of a key are those of its rows.** -/
theorem pairs_of_keeps (h : x.Keeps x.rowSection groups) (key : UInt64) :
    x.pairs key = .ok ((pairsOf KeyGroup.rows groups key).map .ok) := by
  rw [TripleIndex.pairs]
  rcases findKey_of_keeps h key with ⟨i, hi, rfl, hfind⟩ | ⟨hne, hfind⟩
  · rw [hfind, pairsOf_of_mem h.grouped (List.getElem_mem hi)]
    have hall := h.pairsFrom hi (Nat.zero_le _)
    simp only [bind, Except.bind, keyRows_of_keeps h hi, pure, Except.pure]
    rw [Nat.add_zero, List.drop_zero] at hall
    rw [hall]
  · rw [hfind, pairsOf_of_ne hne]
    rfl

theorem drop_length_takeWhile {α : Type} (p : α → Bool) (l : List α) :
    l.drop (l.takeWhile p).length = l.dropWhile p := by
  calc l.drop (l.takeWhile p).length
      = (l.takeWhile p ++ l.dropWhile p).drop (l.takeWhile p).length := by
        rw [List.takeWhile_append_dropWhile]
    _ = l.dropWhile p := List.drop_left

/-- The pairs of a key with one lead are found in either section. -/
theorem Keeps.ledBy (h : x.Keeps part groups) (key lead : UInt64) :
    x.ledBy part key lead =
      .ok (((pairsOf KeyGroup.rows groups key).filter (·.1 == lead)).map .ok) := by
  rw [TripleIndex.ledBy]
  rcases findKey_of_keeps h key with ⟨i, hi, rfl, hfind⟩ | ⟨hne, hfind⟩
  · have hleads := (h.grouped.ascending _ (List.getElem_mem hi)).leads
    have hmono : groups[i].rows.Pairwise fun a b =>
        decide (b.1 < lead) = true → decide (a.1 < lead) = true := hleads.imp fun hab hb => by
      simp only [decide_eq_true_eq] at hb ⊢
      exact UInt64.lt_of_le_of_lt hab hb
    have hlower := h.lowerBound hi hmono
    have hk : (groups[i].rows.takeWhile fun p => decide (p.1 < lead)).length ≤
        groups[i].rows.length :=
      (List.takeWhile_prefix _).length_le
    rw [hfind, pairsOf_of_mem h.grouped (List.getElem_mem hi)]
    simp only [bind, Except.bind, keyRows_of_keeps h hi, hlower, pure, Except.pure]
    rw [h.pairsFrom hi hk, ← Pair.takeWhile_dropWhile_eq_filter hleads, drop_length_takeWhile,
      List.takeWhile_map]
    rfl
  · rw [hfind, pairsOf_of_ne hne]
    rfl

/-- **A row is found exactly if the index holds it.** -/
theorem contains_of_keeps (h : x.Keeps x.rowSection groups) (row : Row) :
    x.contains row = .ok (decide (row ∈ expand KeyGroup.rows groups)) := by
  rw [contains]
  rcases findKey_of_keeps h row.key with ⟨i, hi, hkey, hfind⟩ | ⟨hne, hfind⟩
  · have hascending := h.grouped.ascending _ (List.getElem_mem hi)
    have hmem : (row.subKey, row.value) ∈ groups[i].rows ↔ row ∈ expand KeyGroup.rows groups := by
      rw [← mem_pairsOf, ← hkey, pairsOf_of_mem h.grouped (List.getElem_mem hi)]
      rfl
    generalize (row.subKey, row.value) = target at hmem ⊢
    have hmono : groups[i].rows.Pairwise fun a b =>
        Pair.lt b target = true → Pair.lt a target = true :=
      hascending.imp Pair.lt_of_lt_eq_false
    have hlower := h.lowerBound hi hmono
    have hhead := Pair.head?_dropWhile_eq_iff hascending target
    rw [← drop_length_takeWhile, List.head?_drop, hmem] at hhead
    rw [hfind]
    simp only [bind, Except.bind, keyRows_of_keeps h hi, pure, Except.pure, hlower]
    generalize (groups[i].rows.takeWhile (Pair.lt · target)).length = k at hhead ⊢
    by_cases hk : k < groups[i].rows.length
    · rw [List.getElem?_eq_getElem hk, Option.some_inj] at hhead
      simp only [Nat.add_lt_add_left hk, if_true, h.pairAt hi hk, ← hhead]
      rw [beq_eq_decide]
    · rw [List.getElem?_eq_none (by omega)] at hhead
      have hnot : ¬ rowsBefore groups i + k < rowsBefore groups i + groups[i].rows.length := by
        omega
      simp only [if_neg hnot, ← hhead]
      rfl
  · have hnot : row ∉ expand KeyGroup.rows groups := fun hmem => by
      obtain ⟨g, hg, hkey, -⟩ := mem_expand.1 hmem
      exact hne g hg hkey.symm
    rw [hfind]
    simp [hnot, bind, Except.bind, pure, Except.pure]

/-! ## All keys and rows -/

theorem keys_of_keeps (h : x.Keeps part groups) : x.keys = (groups.map KeyGroup.key).map .ok := by
  rw [TripleIndex.keys, h.keyCount]
  refine List.ext_getElem (by simp) fun i hi hi' => ?_
  have hi : i < groups.length := by simpa using hi
  simp [h.keyAt i hi]

/-- Taking the rows of a key one after another. -/
theorem scanRows_of_reads (h : x.Reads x.rowSection l) (key : UInt64) (items : Array (Result Row))
    {row n : Nat} (hn : row + n ≤ l.length) :
    x.scanRows key ⟨items, row, false⟩ n =
      ⟨items ++ (((l.drop row).take n).map fun p => .ok (Pair.row key p)).toArray, row + n,
        false⟩ := by
  induction n generalizing items row with
  | zero => simp [scanRows]
  | succ n ih =>
    have hrow : row < l.length := by omega
    rw [scanRows, h row hrow]
    simp only
    rw [ih _ (by omega), List.drop_eq_getElem_cons hrow, List.take_succ_cons, List.map_cons]
    simp [Pair.row, Nat.add_assoc, Nat.add_comm 1 n]

theorem foldl_scanKey_of_keeps (h : x.Keeps x.rowSection groups) {i : Nat}
    (hi : i ≤ groups.length) :
    (List.range i).foldl x.scanKey ⟨#[], 0, false⟩ =
      ⟨((expand KeyGroup.rows (groups.take i)).map .ok).toArray, rowsBefore groups i, false⟩ := by
  induction i with
  | zero => simp [expand, rowsBefore]
  | succ i ih =>
    have hi : i < groups.length := hi
    rw [List.range_succ, List.foldl_append, ih (Nat.le_of_lt hi), List.foldl_cons, List.foldl_nil,
      scanKey]
    have hpos := List.length_pos_iff.2 (h.grouped.nonempty _ (List.getElem_mem hi))
    have hstop := rowsBefore_add_le hi
    have hgo : ¬ (false = true ∨ x.count ≤ rowsBefore groups i) := by
      rw [h.count]
      simp only [Bool.false_eq_true, false_or]
      omega
    rw [if_neg hgo, h.keyAt i hi]
    simp only [keyRows_of_keeps h hi, Nat.add_sub_cancel_left]
    rw [scanRows_of_reads h.reads _ _ hstop, drop_take_flatMap (fun _ => rfl) hi,
      List.take_succ_eq_append_getElem hi, rowsBefore_succ hi, expand_append, expand_cons]
    simp only [expand, List.flatMap_nil, List.append_nil, List.map_append, ← List.append_toArray,
      List.map_map]
    rfl

/-- **A scan answers all rows, in order.** -/
theorem scan_of_keeps (h : x.Keeps x.rowSection groups) :
    x.scan = (expand KeyGroup.rows groups).map .ok := by
  rw [scan, h.keyCount, foldl_scanKey_of_keeps h (Nat.le_refl _), List.take_length,
    rowsBefore_length]
  simp [h.count]

end TripleIndex

end TripleStore
