import Mathlib.Algebra.Group.Nat.Defs
import TripleStore.Proofs.TripleIndex.Reads

/-!
# What an index answers

An index answers for a list of rows if all of its reads do (`TripleIndex.Answers`): a scan lists the
rows, which ascend; the keys are the distinct keys of the rows in strictly ascending order; and
whatever is asked about a key is what a filter of the rows finds. An index that holds the rows of
groups answers for these rows, and passes its own checks (`answers_of_holds`). If it keeps them in
the row section alone, it still answers all reads but those by value (`answersByKey_of_keeps`).
-/

namespace TripleStore

namespace TripleIndex

variable {x : TripleIndex} {groups : List KeyGroup} {part : Section}

/-! ## Checks -/

/-- The rows of a key from one of them on pass the check if they ascend. -/
theorem checkRows_of_keeps (h : x.Keeps part groups) (kind : SectionKind) {i : Nat}
    (hi : i < groups.length) (n : Nat) {j : Nat} (hj : j < groups[i].rows.length)
    (hn : j + 1 + n = groups[i].rows.length) :
    x.checkRows part kind groups[i].key groups[i].rows[j] (rowsBefore groups i + j + 1) n =
      .ok () := by
  induction n generalizing j with
  | zero => rfl
  | succ n ih =>
    have hnext : j + 1 < groups[i].rows.length := by omega
    have hlt : Pair.lt groups[i].rows[j + 1] groups[i].rows[j] = false :=
      List.pairwise_iff_getElem.1 (h.grouped.ascending _ (List.getElem_mem hi)) _ _ hj hnext
        (by omega)
    rw [checkRows, Nat.add_assoc]
    exact bind_eq_ok.2 ⟨_, h.pairAt hi hnext,
      bind_eq_ok.2 ⟨(), require_eq_ok.2 hlt, ih hnext (by omega)⟩⟩

theorem checkPart_of_keeps (h : x.Keeps part groups) (kind : SectionKind) {i : Nat}
    (hi : i < groups.length) :
    x.checkPart part kind groups[i].key (rowsBefore groups i)
      (rowsBefore groups i + groups[i].rows.length) = .ok () := by
  have hpos := List.length_pos_iff.2 (h.grouped.nonempty _ (List.getElem_mem hi))
  rw [checkPart]
  refine bind_eq_ok.2 ⟨_, h.pairAt hi hpos, ?_⟩
  have hcheck := checkRows_of_keeps h kind hi (groups[i].rows.length - 1) hpos (by omega)
  rw [show rowsBefore groups i + groups[i].rows.length - (rowsBefore groups i + 0 + 1) =
    groups[i].rows.length - 1 by omega]
  exact hcheck

/-- The rows by value of a key pass the check. -/
theorem checkPart_byValue_of_holds (h : x.Holds groups) (kind : SectionKind) {i : Nat}
    (hi : i < groups.length) :
    x.checkPart x.valueSection kind groups[i].key (rowsBefore groups i)
      (rowsBefore groups i + groups[i].rows.length) = .ok () := by
  have hcheck := checkPart_of_keeps h.keeps_byValue kind (i := i) (by simpa using hi)
  simp only [List.getElem_map, rowsBefore_turned, KeyGroup.turned, KeyGroup.length_byValue]
    at hcheck
  exact hcheck

theorem checkKeys_of_holds (h : x.Holds groups) (n : Nat) {i : Nat} (hn : i + n = groups.length)
    {before : Option UInt64}
    (hbefore : ∀ k ∈ before, ∀ hi : i < groups.length, k < groups[i].key) :
    x.checkKeys before i n = .ok () := by
  induction n generalizing i before with
  | zero => rfl
  | succ n ih =>
    have hi : i < groups.length := by omega
    have hpos := List.length_pos_iff.2 (h.grouped.nonempty _ (List.getElem_mem hi))
    rw [checkKeys]
    refine bind_eq_ok.2 ⟨_, h.keyAt i hi,
      bind_eq_ok.2 ⟨(), require_eq_ok.2 ?_, ?_⟩⟩
    · exact (Option.all_eq_true _ _).2 fun k hk => decide_eq_true (hbefore k hk hi)
    refine bind_eq_ok.2 ⟨_, keyRows_of_keeps h.keeps_rows hi, ?_⟩
    refine bind_eq_ok.2 ⟨(), require_eq_ok.2 (by omega), ?_⟩
    refine bind_eq_ok.2 ⟨(), checkPart_of_keeps h.keeps_rows _ hi,
      bind_eq_ok.2 ⟨(), checkPart_byValue_of_holds h _ hi, ?_⟩⟩
    refine ih (by omega) fun k hk hi' => ?_
    obtain rfl := Option.some.inj hk
    exact h.grouped.key_lt hi' (Nat.lt_succ_self i)

/-- **An index that holds the rows of groups passes its checks.** -/
theorem validate_of_holds (h : x.Holds groups) : x.validate = .ok () := by
  have hfirst := h.offset 0 (Nat.zero_le _)
  have hlast := h.offset groups.length (Nat.le_refl _)
  rw [validate, h.keyCount]
  refine bind_eq_ok.2 ⟨_, hfirst, bind_eq_ok.2 ⟨(), require_eq_ok.2 rfl, ?_⟩⟩
  refine bind_eq_ok.2 ⟨_, hlast, bind_eq_ok.2 ⟨(), require_eq_ok.2 ?_, ?_⟩⟩
  · rw [rowsBefore_length, h.count]
  · exact checkKeys_of_holds h _ (Nat.zero_add _) fun k hk => nomatch hk

/-! ## Reads as filters -/

/-- The pairs of a key stand in both sections, the other way round in one. -/
theorem pairsOf_byValue_perm (h : Grouped groups) (key : UInt64) :
    (pairsOf KeyGroup.byValue groups key).Perm
      ((pairsOf KeyGroup.rows groups key).map Prod.swap) := by
  by_cases hkey : ∃ g ∈ groups, g.key = key
  · obtain ⟨g, hg, rfl⟩ := hkey
    rw [pairsOf_of_mem h hg, pairsOf_of_mem h hg]
    exact g.byValue_perm
  · have hne : ∀ g ∈ groups, g.key ≠ key := fun g hg heq => hkey ⟨g, hg, heq⟩
    rw [pairsOf_of_ne hne, pairsOf_of_ne hne]
    exact List.Perm.refl _

theorem ascending_pairsOf {part : KeyGroup → List Pair} (h : Grouped groups)
    (hpart : ∀ g ∈ groups, Pair.Ascending (part g)) (key : UInt64) :
    Pair.Ascending (pairsOf part groups key) := by
  by_cases hkey : ∃ g ∈ groups, g.key = key
  · obtain ⟨g, hg, rfl⟩ := hkey
    rw [pairsOf_of_mem h hg]
    exact hpart g hg
  · rw [pairsOf_of_ne fun g hg heq => hkey ⟨g, hg, heq⟩]
    exact List.Pairwise.nil

theorem filter_pairsOf {part : KeyGroup → List Pair} (p : Pair → Bool) (key : UInt64) :
    (pairsOf part groups key).filter p =
      ((expand part groups).filter fun r => r.key == key && p (Pair.ofRow r)).map Pair.ofRow := by
  rw [pairsOf, List.filter_map, List.filter_filter]
  exact congrArg _ (List.filter_congr fun r _ => Bool.and_comm _ _)

/-- What follows one lead ascends. -/
theorem pairwise_map_snd_filter {l : List Pair} (h : Pair.Ascending l) (lead : UInt64) :
    ((l.filter (·.1 == lead)).map (·.2)).Pairwise (· ≤ ·) := by
  refine List.pairwise_map.2 ((h.filter _).imp_of_mem fun {a b} ha hb hab => ?_)
  obtain ⟨-, ha⟩ := List.mem_filter.1 ha
  obtain ⟨-, hb⟩ := List.mem_filter.1 hb
  have heq : a.1 = b.1 := (beq_iff_eq.1 ha).trans (beq_iff_eq.1 hb).symm
  rcases Pair.lt_eq_false.1 hab with hlt | ⟨-, hle⟩
  · exact absurd heq (UInt64.ne_of_lt hlt)
  · exact hle

theorem values_of_keeps (h : x.Keeps x.rowSection groups) (key subKey : UInt64) :
    x.values key subKey = .ok
      ((((pairsOf KeyGroup.rows groups key).filter (·.1 == subKey)).map (·.2)).map .ok) := by
  rw [values, h.ledBy]
  simp only [Except.map, List.map_map]
  rfl

theorem subKeys_of_keeps (h : x.Keeps x.valueSection groups) (key value : UInt64) :
    x.subKeys key value = .ok
      ((((pairsOf KeyGroup.rows groups key).filter (·.1 == value)).map (·.2)).map .ok) := by
  rw [subKeys, h.ledBy]
  simp only [Except.map, List.map_map]
  rfl

/-- **The sub keys that the rows by value name are those that the rows name.** -/
theorem subKeys_byValue_eq (h : Grouped groups) (key value : UInt64) :
    ((pairsOf KeyGroup.byValue groups key).filter (·.1 == value)).map (·.2) =
      ((expand KeyGroup.rows groups).filter fun r => r.key == key && r.value == value).map
        (·.subKey) := by
  have hbyValue := pairwise_map_snd_filter
    (ascending_pairsOf h (fun g _ => g.ascending_byValue) key) value
  have hrows : (((pairsOf KeyGroup.rows groups key).filter (·.2 == value)).map (·.1)).Pairwise
      (· ≤ ·) :=
    List.pairwise_map.2 (((ascending_pairsOf h h.ascending key).leads).filter _)
  have hfilter : ((expand KeyGroup.rows groups).filter
      fun r => r.key == key && r.value == value).map (·.subKey) =
        ((pairsOf KeyGroup.rows groups key).filter (·.2 == value)).map (·.1) := by
    rw [filter_pairsOf, List.map_map]
    rfl
  rw [hfilter]
  refine List.Perm.eq_of_pairwise (fun _ _ _ _ => UInt64.le_antisymm) hbyValue hrows ?_
  refine (((pairsOf_byValue_perm h key).filter _).map _).trans (List.Perm.of_eq ?_)
  rw [List.filter_map, List.map_map]
  rfl

/-! ## Answers -/

/-- An index answers for a list of rows. -/
structure Answers (x : TripleIndex) (rows : List Row) : Prop where
  /-- The rows ascend, duplicates allowed. -/
  ascending : Ascending rows
  scan : x.scan = rows.map .ok
  count : x.count = rows.length
  /-- The keys are those of the rows, in strictly ascending order. -/
  keys : ∃ keys : List UInt64, x.keys = keys.map .ok ∧ x.keyCount = keys.length ∧
    keys.Pairwise (· < ·) ∧ ∀ key, key ∈ keys ↔ ∃ r ∈ rows, r.key = key
  pairs : ∀ key, x.pairs key =
    .ok (((rows.filter (·.key == key)).map fun r => (r.subKey, r.value)).map .ok)
  pairs_ascend : ∀ key,
    Pair.Ascending ((rows.filter (·.key == key)).map fun r => (r.subKey, r.value))
  values : ∀ key subKey, x.values key subKey =
    .ok (((rows.filter fun r => r.key == key && r.subKey == subKey).map (·.value)).map .ok)
  values_ascend : ∀ key subKey,
    ((rows.filter fun r => r.key == key && r.subKey == subKey).map (·.value)).Pairwise (· ≤ ·)
  subKeys : ∀ key value, x.subKeys key value =
    .ok (((rows.filter fun r => r.key == key && r.value == value).map (·.subKey)).map .ok)
  subKeys_ascend : ∀ key value,
    ((rows.filter fun r => r.key == key && r.value == value).map (·.subKey)).Pairwise (· ≤ ·)
  contains : ∀ row, x.contains row = .ok (decide (row ∈ rows))
  /-- The index passes its checks. -/
  validate : x.validate = .ok ()

/-- An index answers for a list of rows in all reads but those by value. -/
structure AnswersByKey (x : TripleIndex) (rows : List Row) : Prop where
  /-- The rows ascend, duplicates allowed. -/
  ascending : Ascending rows
  scan : x.scan = rows.map .ok
  count : x.count = rows.length
  /-- The keys are those of the rows, in strictly ascending order. -/
  keys : ∃ keys : List UInt64, x.keys = keys.map .ok ∧ x.keyCount = keys.length ∧
    keys.Pairwise (· < ·) ∧ ∀ key, key ∈ keys ↔ ∃ r ∈ rows, r.key = key
  /-- Each key owns at least one row. -/
  owns : ∀ i < x.keyCount, ∃ start stop, x.keyRows i = .ok (start, stop) ∧ start < stop
  pairs : ∀ key, x.pairs key =
    .ok (((rows.filter (·.key == key)).map fun r => (r.subKey, r.value)).map .ok)
  values : ∀ key subKey, x.values key subKey =
    .ok (((rows.filter fun r => r.key == key && r.subKey == subKey).map (·.value)).map .ok)
  contains : ∀ row, x.contains row = .ok (decide (row ∈ rows))

/-- The values of a key and a sub key among the rows. -/
theorem map_value_filter (groups : List KeyGroup) (key subKey : UInt64) :
    ((expand KeyGroup.rows groups).filter fun r => r.key == key && r.subKey == subKey).map
      (·.value) = ((pairsOf KeyGroup.rows groups key).filter (·.1 == subKey)).map (·.2) := by
  rw [filter_pairsOf, List.map_map]
  rfl

theorem mem_map_key_iff (h : Grouped groups) {key : UInt64} :
    key ∈ groups.map KeyGroup.key ↔ ∃ r ∈ expand KeyGroup.rows groups, r.key = key := by
  constructor
  · intro hkey
    obtain ⟨g, hg, rfl⟩ := List.mem_map.1 hkey
    obtain ⟨p, hp⟩ := List.exists_mem_of_ne_nil _ (h.nonempty g hg)
    exact ⟨Pair.row g.key p, mem_expand.2 ⟨g, hg, rfl, hp⟩, rfl⟩
  · rintro ⟨r, hr, rfl⟩
    obtain ⟨g, hg, hkey, -⟩ := mem_expand.1 hr
    exact List.mem_map.2 ⟨g, hg, hkey.symm⟩

/-- **An index that keeps the rows of groups in their section answers for them by key.** -/
theorem answersByKey_of_keeps (h : x.Keeps x.rowSection groups) :
    x.AnswersByKey (expand KeyGroup.rows groups) where
  ascending := ascending_expand h.grouped.ascending h.grouped.keys
  scan := scan_of_keeps h
  count := by rw [h.count, ← map_ofRow_expand, List.length_map]
  keys := ⟨groups.map KeyGroup.key, keys_of_keeps h, by rw [h.keyCount, List.length_map],
    List.pairwise_map.2 h.grouped.keys, fun _ => mem_map_key_iff h.grouped⟩
  owns i hi := by
    have hi : i < groups.length := h.keyCount ▸ hi
    have hpos := List.length_pos_iff.2 (h.grouped.nonempty _ (List.getElem_mem hi))
    exact ⟨_, _, keyRows_of_keeps h hi, by omega⟩
  pairs := pairs_of_keeps h
  values key subKey := by rw [values_of_keeps h, map_value_filter]
  contains := contains_of_keeps h

/-- **An index that holds the rows of groups answers for them.** -/
theorem answers_of_holds (h : x.Holds groups) : x.Answers (expand KeyGroup.rows groups) := by
  have hbyKey := answersByKey_of_keeps h.keeps_rows
  refine ⟨hbyKey.ascending, hbyKey.scan, hbyKey.count, hbyKey.keys, hbyKey.pairs,
    ascending_pairsOf h.grouped h.grouped.ascending, hbyKey.values, ?_, ?_, ?_, hbyKey.contains,
    validate_of_holds h⟩
  · intro key subKey
    rw [map_value_filter]
    exact pairwise_map_snd_filter (ascending_pairsOf h.grouped h.grouped.ascending key) subKey
  · intro key value
    rw [subKeys_of_keeps h.keeps_byValue, pairsOf, expand_turned, ← pairsOf,
      subKeys_byValue_eq h.grouped]
  · intro key value
    rw [← subKeys_byValue_eq h.grouped]
    exact pairwise_map_snd_filter
      (ascending_pairsOf h.grouped (fun g _ => g.ascending_byValue) key) value

/-- A file, if it is not too large, opens as an index of an order that answers for rows, and its
checksums are right. -/
def Stores (content : ByteArray) (order : RoleOrder) (rows : List Row) : Prop :=
  content.size < 2 ^ 63 → ∃ x, ofBytes content = .ok x ∧ x.order = order ∧ x.verify = .ok () ∧
    x.Answers rows

end TripleIndex

end TripleStore
