import Mathlib.Data.List.Pairwise
import TripleStore.Container.Layout

/-!
# Sections that keep apart

`Layout.disjoint` sorts sections by position and length and then compares neighbours only. That is
enough to know of any two sections that one ends before the other starts, also where sections are
empty or start at one position (`Layout.disjoint_iff_pairwise`).
-/

namespace TripleStore

/-- One of two sections ends before the other starts. -/
def Section.Apart (a b : Section) : Prop := a.stop ≤ b.start ∨ b.stop ≤ a.start

instance Section.instDecidableApart (a b : Section) : Decidable (a.Apart b) :=
  inferInstanceAs (Decidable (a.stop ≤ b.start ∨ b.stop ≤ a.start))

theorem Section.Apart.symm {a b : Section} (h : a.Apart b) : b.Apart a := Or.symm h

theorem Section.start_le_stop (s : Section) : s.start ≤ s.stop := Nat.le_add_right _ _

namespace Layout

theorem spanLe_iff {a b : Section} :
    spanLe a b = true ↔ a.start < b.start ∨ a.start = b.start ∧ a.length ≤ b.length := by
  simp [spanLe]

theorem pairwise_spanLe_mergeSort (spans : List Section) :
    (spans.mergeSort spanLe).Pairwise fun a b => spanLe a b = true := by
  refine List.pairwise_mergeSort (fun a b c hab hbc => ?_) (fun a b => ?_) spans
  · rw [spanLe_iff] at hab hbc ⊢
    omega
  · rw [Bool.or_eq_true, spanLe_iff, spanLe_iff]
    omega

/-- Of two sections in order that keep apart, the first one ends before the second one starts: if it
is the other way round, both are empty and at one position. -/
theorem stop_le_of_spanLe {a b : Section} (hle : spanLe a b = true) (h : a.Apart b) :
    a.stop ≤ b.start := by
  rw [spanLe_iff] at hle
  rcases h with h | h
  · exact h
  · simp only [Section.stop] at h ⊢
    omega

/-- Sections that are each followed by one behind their end stand in order. -/
theorem backToBack_iff_pairwise {spans : List Section} :
    backToBack spans = true ↔ spans.Pairwise fun a b => a.stop ≤ b.start := by
  fun_induction backToBack spans with
  | case1 a b rest ih =>
    rw [Bool.and_eq_true, decide_eq_true_eq, ih, List.pairwise_cons (a := a)]
    refine and_congr_left fun hrest => ⟨fun hab c hc => ?_, fun h => h b List.mem_cons_self⟩
    rcases List.mem_cons.1 hc with rfl | hc
    · exact hab
    · have hbc := List.rel_of_pairwise_cons hrest hc
      have hb := b.start_le_stop
      omega
  | case2 spans hspans =>
    rcases spans with _ | ⟨a, _ | ⟨b, rest⟩⟩
    · simp
    · simp
    · exact absurd rfl (hspans a b rest)

/-- **Comparing neighbours is enough.** Sections that were sorted are each followed by one behind
their end exactly if any two of them keep apart. -/
theorem disjoint_iff_pairwise (spans : List Section) :
    disjoint spans = true ↔ spans.Pairwise Section.Apart := by
  have hsorted := pairwise_spanLe_mergeSort spans
  have hperm := List.mergeSort_perm spans spanLe
  rw [disjoint, backToBack_iff_pairwise, ← hperm.pairwise_iff Section.Apart.symm]
  constructor
  · exact List.Pairwise.imp .inl
  · intro h
    exact (hsorted.and h).imp fun hab => stop_le_of_spanLe hab.1 hab.2

/-- The check can be made without sorting. So the opening of a given file can be computed. -/
theorem disjoint_eq_decide (spans : List Section) :
    disjoint spans = decide (spans.Pairwise Section.Apart) := by
  rw [Bool.eq_iff_iff, disjoint_iff_pairwise, decide_eq_true_eq]

end Layout

end TripleStore
