import TripleStore.Proofs.Sorter.Shared

/-!
# Sorting within a budget is sorting in memory

A sorter counts every record that it takes in (`total_pushed`) and holds those that it was given one
after another (`pushAll_of_clear`). So it answers them sorted, without an error, however many runs
its budget made it write (`sorts_within_any_budget`).
-/

namespace TripleStore

namespace Sorter

variable {α : Type} [Ord α] [Record α] {folder : Path} {name : String} {t : FileTree}
  {records : List α}

omit [Ord α] in
/-- Every record is counted, written out or not. -/
theorem total_pushed (a : α) (s : Sorter α) : (s.pushed a).total = s.total + 1 := by
  unfold pushed spilled
  split <;> [split; skip] <;> rfl

/-- The arrangement of the records that every sorter answers, whatever its budget: it ascends, it
has each record as often as it was pushed, and no error comes up when it is drained. -/
structure Sorts (t : FileTree) (folder : Path) (name : String) (records answer : List α) :
    Prop where
  ascending : Ascending answer
  perm : answer.Perm records
  within : ∀ budget, ∃ s t₁ stream files t₂,
    (records.forM push).apply (create folder name budget) t = (.ok (), s, t₁) ∧
    s.total = records.length ∧
    s.finish.apply t₁ = (.ok (stream, files), t₂) ∧
    stream.collect = .ok answer

variable [Std.TransOrd α]

/-- **A sorter holds the records that it was given one after another**, and has counted them. -/
theorem pushAll_of_clear (h : Clear t folder name) (hfits : ∀ a ∈ records, Record.Fits a)
    (budget : Nat) :
    ∃ s t', (records.forM push).apply (create folder name budget) t = (.ok (), s, t') ∧
      s.total = records.length ∧ Holds folder name t' s records ∧ t'.Sound := by
  let P := fun before (s : Sorter α) t' =>
    s.total = before.length ∧ Holds folder name t' s before ∧ t'.Sound
  refine Build.forM_of_step (P := P) (fun before a after s t₁ hrecords h₁ => ?_)
    ⟨rfl, holds_create h.hasFolder h.free budget, h.sound⟩
  obtain ⟨htotal, hholds, hsound⟩ := h₁
  obtain ⟨s', t', hpush, hholds', hoff⟩ :=
    push_of_holds hsound hholds (hfits a (by simp [hrecords]))
  have hclear : Clear t₁ s.folder s.name := by
    rw [hholds.folder_eq, hholds.name_eq]
    exact ⟨hsound, hholds.hasFolder, hholds.free⟩
  obtain ⟨t'', hpushed, -⟩ := push_of_clear hclear a
  obtain ⟨-, hafter⟩ := Prod.mk.inj (hpush.symm.trans hpushed)
  obtain ⟨rfl, -⟩ := Prod.mk.inj hafter
  refine ⟨_, t', hpush, ?_, hholds', hoff.sound⟩
  rw [total_pushed, htotal, List.length_append, List.length_singleton]

/-- **Records that can be read back are answered sorted**, within any budget. -/
theorem sorts_of_fits [Std.LawfulEqOrd α] (h : Clear t folder name)
    (hfits : ∀ a ∈ records, Record.Fits a) : Sorts t folder name records (sorted records) where
  ascending := ascending_sorted records
  perm := sorted_perm records
  within budget := by
    obtain ⟨s, t₁, hpush, htotal, hholds, hsound⟩ := pushAll_of_clear h hfits budget
    obtain ⟨stream, files, t₂, hfinish, hstream, -⟩ := finish_of_holds hsound hholds
    exact ⟨s, t₁, stream, files, t₂, hpush, htotal, hfinish, Stream.collect_of_holds hstream⟩

/-- **Sorting within any budget is sorting in memory**, for byte strings, whose lengths have 64
bits, and for rows. -/
theorem sorts_within_any_budget (h : Clear t folder name) :
    (∀ strings : List ByteArray, (∀ b ∈ strings, b.size < limit64) →
      Sorts t folder name strings (sorted strings)) ∧
    ∀ rows : List Row, Sorts t folder name rows (sorted rows) :=
  ⟨fun _ hsize => sorts_of_fits h fun b hb => fits_bytes (hsize b hb),
    fun _ => sorts_of_fits h fun r _ => fits_row r⟩

/-- Byte strings, the empty one twice, and rows, one of them twice, with a budget of zero, which
writes each record out at once, in the root of the file system. -/
theorem sorts_within_no_budget :
    Clear FileTree.empty ⟨true, [], .slash⟩ "terms" ∧
    (∃ s t₁ stream files t₂,
      ([⟨#[2]⟩, ⟨#[]⟩, ⟨#[1, 2]⟩, ⟨#[]⟩].forM push : Build (Sorter ByteArray) Unit).apply
        (create ⟨true, [], .slash⟩ "terms" 0) FileTree.empty = (.ok (), s, t₁) ∧
      s.total = 4 ∧ s.finish.apply t₁ = (.ok (stream, files), t₂) ∧
      stream.collect = .ok [⟨#[]⟩, ⟨#[]⟩, ⟨#[1, 2]⟩, ⟨#[2]⟩]) ∧
    ∃ s t₁ stream files t₂,
      ([⟨3, 1, 2⟩, ⟨1, 1, 2⟩, ⟨3, 1, 2⟩].forM push : Build (Sorter Row) Unit).apply
        (create ⟨true, [], .slash⟩ "terms" 0) FileTree.empty = (.ok (), s, t₁) ∧
      s.total = 3 ∧ s.finish.apply t₁ = (.ok (stream, files), t₂) ∧
      stream.collect = .ok [⟨1, 1, 2⟩, ⟨3, 1, 2⟩, ⟨3, 1, 2⟩] := by
  obtain ⟨hstrings, hrows⟩ := sorts_within_any_budget (clear_root "terms")
  have hsorted : sorted [⟨#[2]⟩, ⟨#[]⟩, ⟨#[1, 2]⟩, ⟨#[]⟩] =
      ([⟨#[]⟩, ⟨#[]⟩, ⟨#[1, 2]⟩, ⟨#[2]⟩] : List ByteArray) :=
    eq_of_perm_of_ascending (ascending_sorted _) (by decide +kernel)
      ((sorted_perm _).trans (by decide))
  have hsorted' : sorted [⟨3, 1, 2⟩, ⟨1, 1, 2⟩, ⟨3, 1, 2⟩] =
      ([⟨1, 1, 2⟩, ⟨3, 1, 2⟩, ⟨3, 1, 2⟩] : List Row) :=
    eq_of_perm_of_ascending (ascending_sorted _) (by decide)
      ((sorted_perm _).trans (by decide))
  refine ⟨clear_root "terms", ?_, ?_⟩
  · rw [← hsorted]
    exact (hstrings _ (by decide)).within 0
  · rw [← hsorted']
    exact (hrows _).within 0

end Sorter

end TripleStore
