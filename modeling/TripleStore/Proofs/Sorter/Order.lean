import TripleStore.Proofs.Octets
import TripleStore.Sorter

/-!
# Sorted records

The records of both kinds are linearly ordered, so a list has just one ascending arrangement
(`eq_of_perm_of_ascending`). It is what sorting in memory gives, and it starts with the least record
(`sorted_eq_cons`). `runLengths` of an ascending list names its distinct records in strictly
ascending order, each with its number.
-/

namespace TripleStore

/-! ## Order of rows -/

instance instTransOrdRow : Std.TransOrd Row :=
  inferInstanceAs (Std.TransCmp
    (compareLex (compareOn Row.key) (compareLex (compareOn Row.subKey) (compareOn Row.value))))

instance instLawfulEqOrdRow : Std.LawfulEqOrd Row where
  eq_of_compare {a b} h := by
    change Row.compare a b = .eq at h
    simp only [Row.compare, Ordering.then_eq_eq, Std.LawfulEqOrd.compare_eq_iff_eq] at h
    obtain ⟨hkey, hsub, hvalue⟩ := h
    cases a
    cases b
    simp_all

/-! ## Ascending lists -/

section

variable {α : Type} [Ord α]

/-- The records ascend, duplicates allowed. -/
def Ascending (l : List α) : Prop := l.Pairwise fun a b => (compare a b).isLE

instance instDecidableAscending (l : List α) : Decidable (Ascending l) :=
  inferInstanceAs (Decidable (l.Pairwise fun a b => (compare a b).isLE))

/-- The records ascend without duplicates. -/
def StrictlyAscending (l : List α) : Prop := l.Pairwise fun a b => compare a b = .lt

theorem ne_of_compare_eq_lt [Std.ReflOrd α] {a b : α} (h : compare a b = .lt) : a ≠ b := by
  rintro rfl
  have hself : compare a a = .eq := Std.ReflCmp.compare_self
  rw [hself] at h
  cases h

theorem StrictlyAscending.nodup [Std.ReflOrd α] {l : List α} (h : StrictlyAscending l) : l.Nodup :=
  h.imp ne_of_compare_eq_lt

theorem StrictlyAscending.ascending {l : List α} (h : StrictlyAscending l) : Ascending l :=
  h.imp fun hlt => by rw [hlt]; rfl

variable [Std.TransOrd α] [Std.LawfulEqOrd α]

theorem eq_of_isLE_of_isLE {a b : α} (hab : (compare a b).isLE) (hba : (compare b a).isLE) :
    a = b :=
  Std.LawfulEqCmp.eq_of_compare (Std.OrientedCmp.isLE_antisymm hab hba)

/-- **There is one ascending arrangement.** -/
theorem eq_of_perm_of_ascending {l r : List α} (hl : Ascending l) (hr : Ascending r)
    (h : l.Perm r) : l = r :=
  h.eq_of_pairwise (fun _ _ _ _ hab hba => eq_of_isLE_of_isLE hab hba) hl hr

/-- **Strictly ascending lists are known by their members.** -/
theorem eq_of_mem_iff_of_strictlyAscending {l r : List α} (hl : StrictlyAscending l)
    (hr : StrictlyAscending r) (h : ∀ a, a ∈ l ↔ a ∈ r) : l = r :=
  eq_of_perm_of_ascending hl.ascending hr.ascending
    ((List.perm_ext_iff_of_nodup hl.nodup hr.nodup).2 h)

end

namespace Sorter

variable {α : Type} [Ord α]

theorem sorted_perm (l : List α) : (sorted l).Perm l := List.mergeSort_perm l le

theorem sorted_reverse_perm (l : List α) : (sorted l.reverse).Perm l :=
  (sorted_perm _).trans (List.reverse_perm l)

@[simp] theorem length_sorted (l : List α) : (sorted l).length = l.length :=
  (sorted_perm l).length_eq

@[simp] theorem mem_sorted {a : α} {l : List α} : a ∈ sorted l ↔ a ∈ l := (sorted_perm l).mem_iff

variable [Std.TransOrd α]

theorem le_trans (a b c : α) (hab : le a b = true) (hbc : le b c = true) : le a c = true :=
  Std.TransCmp.isLE_trans hab hbc

theorem le_total (a b : α) : (le a b || le b a) = true := by
  have hswap : compare b a = (compare a b).swap := Std.OrientedCmp.eq_swap
  unfold le
  rw [hswap]
  cases compare a b <;> rfl

theorem ascending_sorted (l : List α) : Ascending (sorted l) :=
  List.pairwise_mergeSort le_trans le_total l

variable [Std.LawfulEqOrd α]

theorem sorted_eq_of_perm {l r : List α} (h : l.Perm r) : sorted l = sorted r :=
  eq_of_perm_of_ascending (ascending_sorted l) (ascending_sorted r)
    ((sorted_perm l).trans (h.trans (sorted_perm r).symm))

/-- Sorting puts the least record first. -/
theorem sorted_eq_cons {a : α} {l rest : List α} (h : l.Perm (a :: rest))
    (hle : ∀ b ∈ rest, (compare a b).isLE) : sorted l = a :: sorted rest := by
  refine eq_of_perm_of_ascending (ascending_sorted l) ?_ ?_
  · exact List.pairwise_cons.2 ⟨fun b hb => hle b (mem_sorted.1 hb), ascending_sorted rest⟩
  · exact (sorted_perm l).trans (h.trans ((sorted_perm rest).symm.cons a))

end Sorter

/-! ## Distinct records -/

section

variable {α : Type} [DecidableEq α]

theorem runLengths_cons (a : α) (l : List α) : runLengths (a :: l) = addRun a (runLengths l) := rfl

theorem mem_map_fst_addRun {a b : α} {runs : List (α × Nat)} :
    b ∈ (addRun a runs).map (·.1) ↔ b = a ∨ b ∈ runs.map (·.1) := by
  cases runs with
  | nil => simp [addRun]
  | cons r runs =>
    simp only [addRun]
    split
    · rename_i h
      simp [h]
    · simp

/-- The distinct records are those of the list. -/
theorem mem_map_fst_runLengths {b : α} {l : List α} : b ∈ (runLengths l).map (·.1) ↔ b ∈ l := by
  induction l with
  | nil => simp [runLengths]
  | cons a l ih => rw [runLengths_cons, mem_map_fst_addRun, ih, List.mem_cons]

variable [Ord α] [Std.TransOrd α] [Std.LawfulEqOrd α]

/-- **The distinct records of an ascending list ascend strictly.** -/
theorem strictlyAscending_runLengths {l : List α} (h : Ascending l) :
    StrictlyAscending ((runLengths l).map (·.1)) := by
  induction l with
  | nil => exact List.Pairwise.nil
  | cons a l ih =>
    obtain ⟨ha, hl⟩ := List.pairwise_cons.1 h
    have ih := ih hl
    have hle : ∀ b ∈ (runLengths l).map (·.1), (compare a b).isLE := fun b hb =>
      ha b (mem_map_fst_runLengths.1 hb)
    rw [runLengths_cons]
    cases hr : runLengths l with
    | nil => exact List.pairwise_singleton _ _
    | cons r runs =>
      rw [hr] at ih hle
      simp only [addRun]
      split
      · exact ih
      · rename_i hne
        have hlt : compare a r.1 = .lt := by
          have := hle r.1 (by simp)
          cases hc : compare a r.1 with
          | lt => rfl
          | eq => exact absurd (Std.LawfulEqCmp.eq_of_compare hc) hne
          | gt => simp [hc] at this
        refine List.pairwise_cons.2 ⟨fun b hb => ?_, ih⟩
        rcases List.mem_cons.1 hb with rfl | hb
        · exact hlt
        · exact Std.TransCmp.lt_trans hlt ((List.pairwise_cons.1 ih).1 b hb)

/-- **The number of a distinct record is how often it stands in an ascending list.** -/
theorem count_of_mem_runLengths {l : List α} (h : Ascending l) {a : α} {n : Nat}
    (hmem : (a, n) ∈ runLengths l) : n = l.countP (· = a) := by
  induction l generalizing a n with
  | nil => cases hmem
  | cons b l ih =>
    have hnodup := (strictlyAscending_runLengths h).nodup
    have ih : ∀ {a n}, (a, n) ∈ runLengths l → n = l.countP (· = a) := ih (List.pairwise_cons.1 h).2
    have hmem_iff : ∀ c, c ∈ (runLengths l).map (·.1) ↔ c ∈ l := fun _ => mem_map_fst_runLengths
    rw [runLengths_cons] at hmem hnodup
    cases hr : runLengths l with
    | nil =>
      rw [hr] at hmem hmem_iff
      obtain rfl : l = [] := List.eq_nil_iff_forall_not_mem.2 fun c hc => by
        simpa using (hmem_iff c).2 hc
      obtain ⟨rfl, rfl⟩ := Prod.mk.inj (List.mem_singleton.1 hmem)
      simp
    | cons r runs =>
      obtain ⟨c, k⟩ := r
      rw [hr] at hmem hnodup hmem_iff ih
      simp only [addRun] at hmem hnodup
      split at hmem
      · -- the run of `c` goes on
        rename_i hbc
        subst hbc
        rw [if_pos rfl] at hnodup
        rcases List.mem_cons.1 hmem with heq | hrest
        · obtain ⟨rfl, rfl⟩ := Prod.mk.inj heq
          rw [List.countP_cons_of_pos (by simp), ← ih List.mem_cons_self]
        · have hne : b ≠ a := by
            rintro rfl
            exact (List.nodup_cons.1 hnodup).1 (List.mem_map.2 ⟨_, hrest, rfl⟩)
          rw [List.countP_cons_of_neg (by simpa using hne), ← ih (List.mem_cons_of_mem _ hrest)]
      · -- a new run starts
        rename_i hbc
        rw [if_neg hbc] at hnodup
        have hnew := (List.nodup_cons.1 hnodup).1
        rcases List.mem_cons.1 hmem with heq | hrest
        · obtain ⟨rfl, rfl⟩ := Prod.mk.inj heq
          rw [List.countP_cons_of_pos (by simp), List.countP_eq_zero.2 fun c hc heq => ?_]
          rw [of_decide_eq_true heq] at hc
          exact hnew ((hmem_iff a).2 hc)
        · have hne : b ≠ a := by
            rintro rfl
            exact hnew (List.mem_map.2 ⟨_, hrest, rfl⟩)
          rw [List.countP_cons_of_neg (by simpa using hne), ← ih hrest]

end

end TripleStore
