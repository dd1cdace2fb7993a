import TripleStore.Proofs.Sorter.Delimited
import TripleStore.Proofs.Sorter.Shared

/-!
# Sorters within their budget

A sorter counts its buffered records against its budget and writes them out once they reach it. In
every state that pushing records leads to (`Sorter.Reached`), the count is right and below the
budget, the runs ascend and can be read to their ends, and runs and buffer together hold just the
records that were pushed (`Sorter.stays_within_budget`). A push fails only when its run cannot be
written. That loses no record either: the buffer stays, over the budget just then, and the next push
tries again.
-/

namespace TripleStore

namespace Sorter

variable {α : Type} [Ord α] [Record α] {s s' : Sorter α} {t t' : FileTree} {a : α} {r : Result Unit}
  {folder : Path} {name : String} {budget i : Nat} {l records : List α}
  {log : List (α × Result Unit)}

/-! ## Accounts -/

/-- The file of run number `i` holds these records, at least one and in ascending order, and is read
to its end. -/
structure HasRun (t : FileTree) (s : Sorter α) (i : Nat) (l : List α) : Prop where
  ne_nil : l ≠ []
  ascending : Ascending l
  reads : ∃ content, t.read (s.runPath i) = .ok content ∧
    Head.readAll i (octets content) = .ok l

theorem HasRun.of_read (h : HasRun t s i l)
    (hread : ∀ content, t.read (s.runPath i) = .ok content → t'.read (s'.runPath i) = .ok content) :
    HasRun t' s' i l := by
  obtain ⟨content, hcontent, hall⟩ := h.reads
  exact ⟨h.ne_nil, h.ascending, content, hread content hcontent, hall⟩

/-- **The file that a buffer was written to** has it as a run. -/
theorem hasRun_of_write [Std.TransOrd α] (hbuffer : s.buffer ≠ [])
    (hfits : ∀ a ∈ s.buffer, Record.Fits a)
    (hwrite : t.write (s.runPath s.runs) (encodeRun (sorted s.buffer.reverse)) = .ok t') :
    HasRun t' s s.runs (sorted s.buffer.reverse) := by
  have hperm := sorted_reverse_perm s.buffer
  refine ⟨fun hnil => hbuffer ?_, ascending_sorted _, _, FileTree.read_of_write hwrite, ?_⟩
  · exact (hnil ▸ hperm).nil_eq.symm
  · rw [encodeRun, octets_toByteArray]
    exact Head.readAll_flatMap_encode (fun a ha => hfits a (hperm.mem_iff.1 ha)) s.runs

/-- Runs that were written before stay when the next one is written. -/
theorem HasRun.of_write {content : ByteArray} (h : HasRun t s i l) (hi : i < s.runs)
    (hwrite : t.write (s.runPath s.runs) content = .ok t') : HasRun t' s i l := by
  refine h.of_read fun _ => FileTree.read_of_write_of_ne hwrite ?_
  rw [place_runPath, place_runPath]
  intro heq
  exact Nat.ne_of_lt hi (runName_injective (by simpa using heq)).2

/-- What a sorter counts: its buffered records by their footprints, and all records by number. They
are in its runs and in its buffer, each as often as it was taken in. -/
structure Accounted (records : List α) (s : Sorter α) (t : FileTree) : Prop where
  held_eq : s.held = (s.buffer.map Record.footprint).sum
  total_eq : s.total = records.length
  runs : ∃ lists : List (List α), lists.length = s.runs ∧
    (∀ i (h : i < lists.length), HasRun t s i lists[i]) ∧
    (lists.flatten ++ s.buffer).Perm records

theorem accounted_create (folder : Path) (name : String) (budget : Nat) (t : FileTree) :
    Accounted [] (create folder name budget : Sorter α) t :=
  ⟨rfl, rfl, [], rfl, by simp, List.Perm.refl _⟩

/-- Nothing matters in a tree but the runs. -/
theorem Accounted.of_read (h : Accounted records s t)
    (hread : ∀ i < s.runs, t'.read (s.runPath i) = t.read (s.runPath i)) :
    Accounted records s t' := by
  obtain ⟨lists, hlength, hruns, hperm⟩ := h.runs
  refine ⟨h.held_eq, h.total_eq, lists, hlength, fun i hi => (hruns i hi).of_read ?_, hperm⟩
  intro content hcontent
  rw [hread i (hlength ▸ hi), hcontent]

theorem Accounted.take (h : Accounted records s t) (a : α) :
    Accounted (records ++ [a]) (s.take a) t := by
  obtain ⟨lists, hlength, hruns, hperm⟩ := h.runs
  refine ⟨?_, ?_, lists, hlength, fun i hi => (hruns i hi).of_read fun _ => id, ?_⟩
  · rw [Sorter.take, List.map_cons, List.sum_cons, h.held_eq, Nat.add_comm]
  · rw [Sorter.take, h.total_eq, List.length_append, List.length_singleton]
  · have hmiddle : (lists.flatten ++ a :: s.buffer).Perm (a :: (lists.flatten ++ s.buffer)) :=
      List.perm_middle
    exact hmiddle.trans ((hperm.cons a).trans (List.perm_append_singleton a records).symm)

/-- **A buffer that is written out becomes the next run**, and the runs before it stay. -/
theorem Accounted.spilled [Std.TransOrd α] (h : Accounted records s t) (hbuffer : s.buffer ≠ [])
    (hfits : ∀ a ∈ s.buffer, Record.Fits a)
    (hwrite : t.write (s.runPath s.runs) (encodeRun (sorted s.buffer.reverse)) = .ok t') :
    Accounted records s.spilled t' := by
  obtain ⟨lists, hlength, hruns, hperm⟩ := h.runs
  have hspilled : s.spilled = { s with buffer := [], held := 0, runs := s.runs + 1 } :=
    if_neg (by simpa using hbuffer)
  rw [hspilled]
  refine ⟨rfl, h.total_eq, lists ++ [sorted s.buffer.reverse], by simp [hlength],
    fun i hi => ?_, ?_⟩
  · rw [List.length_append, List.length_singleton] at hi
    rcases Nat.lt_or_ge i lists.length with hold | hlast
    · rw [List.getElem_append_left hold]
      exact ((hruns i hold).of_write (hlength ▸ hold) hwrite).of_read fun _ => id
    · obtain rfl : i = s.runs := by omega
      rw [List.getElem_concat_length hlength.symm]
      exact (hasRun_of_write hbuffer hfits hwrite).of_read fun _ => id
  · rw [List.flatten_append, List.flatten_singleton, List.append_nil]
    exact ((sorted_reverse_perm s.buffer).append_left _).trans hperm

/-! ## Sequences of pushes -/

/-- A new sorter has got here by these pushes, each with its answer. Others may do to the tree what
they like between the pushes, but leave the runs of the sorter as they are. -/
inductive Reached (folder : Path) (name : String) (budget : Nat) :
    List (α × Result Unit) → Sorter α → FileTree → Prop
  | create (t : FileTree) : Reached folder name budget [] (create folder name budget) t
  | push {log : List (α × Result Unit)} {s s' : Sorter α} {t t' : FileTree} {a : α}
      {r : Result Unit} (h : Reached folder name budget log s t)
      (hrun : (push a).apply s t = (r, s', t')) : Reached folder name budget (log ++ [(a, r)]) s' t'
  | elsewhere {log : List (α × Result Unit)} {s : Sorter α} {t t' : FileTree}
      (h : Reached folder name budget log s t)
      (hread : ∀ i < s.runs, t'.read (s.runPath i) = t.read (s.runPath i)) :
      Reached folder name budget log s t'

/-- Where nothing is in the way of runs, a record is taken. -/
theorem Reached.push_of_clear (h : Reached folder name budget log s t)
    (hclear : Clear t s.folder s.name) (a : α) :
    ∃ t', Reached folder name budget (log ++ [(a, .ok ())]) (s.pushed a) t' ∧
      Clear t' (s.pushed a).folder (s.pushed a).name := by
  obtain ⟨t', hrun, hrefiled, -⟩ := Sorter.push_of_clear hclear a
  rw [folder_pushed, name_pushed]
  exact ⟨t', h.push hrun, hclear.of_refiled hrefiled⟩

/-- The accounts of a sorter after some pushes. What it holds is below its budget, unless the last
of them could not write a run. -/
structure KeepsAccount (budget : Nat) (log : List (α × Result Unit)) (s : Sorter α)
    (t : FileTree) : Prop extends Accounted (log.map Prod.fst) s t where
  budget_eq : s.budget = max budget 1
  within : s.held < max budget 1 ↔ ∀ entry ∈ log.getLast?, entry.2 = .ok ()
  faults : ∀ entry ∈ log, entry.2 = .ok () ∨ ∃ fault, entry.2 = .error (.io fault)

/-- **One more push keeps the accounts.** -/
theorem KeepsAccount.push [Std.TransOrd α] (h : KeepsAccount budget log s t)
    (hfits : ∀ entry ∈ log ++ [(a, r)], Record.Fits entry.1)
    (hrun : (push a).apply s t = (r, s', t')) : KeepsAccount budget (log ++ [(a, r)]) s' t' := by
  have htake : Accounted ((log ++ [(a, r)]).map Prod.fst) (s.take a) t := by
    rw [List.map_append]
    exact h.toAccounted.take a
  have hfaults (hr : r = .ok () ∨ ∃ fault, r = .error (.io fault)) :
      ∀ entry ∈ log ++ [(a, r)], entry.2 = .ok () ∨ ∃ fault, entry.2 = .error (.io fault) := by
    intro entry hentry
    rcases List.mem_append.1 hentry with hold | hnew
    · exact h.faults entry hold
    · rwa [List.mem_singleton.1 hnew]
  have hbudget := h.budget_eq
  rcases push_cases hrun with ⟨hheld, rfl, rfl, rfl⟩ | ⟨-, rfl, rfl, hwrite⟩ |
    ⟨hheld, ⟨fault, rfl⟩, rfl, rfl⟩
  · exact { htake with
      budget_eq := hbudget
      within := by simp [← hbudget, hheld]
      faults := hfaults (.inl rfl) }
  · have hbuffer : ∀ b ∈ (s.take a).buffer, Record.Fits b := by
      obtain ⟨lists, -, -, hperm⟩ := htake.runs
      intro b hb
      have hmem := hperm.mem_iff.1 (List.mem_append_right lists.flatten hb)
      obtain ⟨entry, hentry, rfl⟩ := List.mem_map.1 hmem
      exact hfits entry hentry
    exact { htake.spilled (List.cons_ne_nil _ _) hbuffer hwrite with
      budget_eq := (budget_spilled _).trans hbudget
      within := by simp [Sorter.spilled, Sorter.take]
      faults := hfaults (.inl rfl) }
  · exact { htake with
      budget_eq := hbudget
      within := by simp [← hbudget, Nat.not_lt.2 hheld]
      faults := hfaults (.inr ⟨fault, rfl⟩) }

/-- **Every sequence of pushes keeps the accounts.** -/
theorem keepsAccount_of_reached [Std.TransOrd α] (h : Reached folder name budget log s t)
    (hfits : ∀ entry ∈ log, Record.Fits entry.1) : KeepsAccount budget log s t := by
  induction h with
  | create t =>
    exact { accounted_create folder name budget t with
      budget_eq := rfl
      within := by simp [Sorter.create]
      faults := by simp }
  | push h hrun ih =>
    exact (ih fun entry hentry => hfits entry (List.mem_append_left _ hentry)).push hfits hrun
  | elsewhere h hread ih =>
    exact { (ih hfits).toAccounted.of_read hread, ih hfits with }

/-- **A sorter stays within its budget and loses nothing on the way**, with byte strings, whose
lengths have 64 bits, and with rows, whatever comes of its pushes. -/
theorem stays_within_budget (folder : Path) (name : String) (budget : Nat) (t : FileTree) :
    (∀ (log : List (ByteArray × Result Unit)) (s : Sorter ByteArray),
      (∀ entry ∈ log, entry.1.size < limit64) → Reached folder name budget log s t →
      KeepsAccount budget log s t) ∧
    ∀ (log : List (Row × Result Unit)) (s : Sorter Row), Reached folder name budget log s t →
      KeepsAccount budget log s t :=
  ⟨fun _ _ hsize h => keepsAccount_of_reached h fun entry hentry => fits_bytes (hsize entry hentry),
    fun _ _ h => keepsAccount_of_reached h fun entry _ => fits_row entry.1⟩

/-- Byte strings of 2, 0, 1 and 0 bytes, each of which counts 24 more, within a budget of 60: the
third one fills the buffer. Rows without a budget, the first of them while the folder is missing. -/
theorem stays_within_budget_of_sixty :
    (∃ s t, Reached ⟨true, [], .slash⟩ "terms" 60
        [(⟨#[2, 1]⟩, .ok ()), (⟨#[]⟩, .ok ()), (⟨#[1]⟩, .ok ()), (⟨#[]⟩, .ok ())] s t ∧
      KeepsAccount 60 [((⟨#[2, 1]⟩ : ByteArray), .ok ()), (⟨#[]⟩, .ok ()), (⟨#[1]⟩, .ok ()),
        (⟨#[]⟩, .ok ())] s t ∧ s.runs = 1 ∧ s.buffer = [⟨#[]⟩]) ∧
    ∃ s t, Reached ⟨false, ["work"], .name⟩ "spo" 0
        [(⟨3, 1, 2⟩, .error (.io .notFound)), (⟨1, 1, 2⟩, .ok ())] s t ∧
      KeepsAccount 0 [((⟨3, 1, 2⟩ : Row), .error (.io .notFound)), (⟨1, 1, 2⟩, .ok ())] s t ∧
      s.runs = 1 ∧ s.buffer = [] := by
  constructor
  · have h₀ : Reached ⟨true, [], .slash⟩ "terms" 60 [] (Sorter.create _ _ _ : Sorter ByteArray)
        FileTree.empty := .create FileTree.empty
    obtain ⟨t₁, h₁, hclear₁⟩ := h₀.push_of_clear (clear_root "terms") ⟨#[2, 1]⟩
    obtain ⟨t₂, h₂, hclear₂⟩ := h₁.push_of_clear hclear₁ ⟨#[]⟩
    obtain ⟨t₃, h₃, hclear₃⟩ := h₂.push_of_clear hclear₂ ⟨#[1]⟩
    obtain ⟨t₄, h₄, -⟩ := h₃.push_of_clear hclear₃ ⟨#[]⟩
    exact ⟨_, t₄, h₄, (stays_within_budget _ _ 60 t₄).1 _ _ (by decide) h₄, rfl, rfl⟩
  · have hmissing : (push ⟨3, 1, 2⟩).apply
        (Sorter.create ⟨false, ["work"], .name⟩ "spo" 0 : Sorter Row) FileTree.empty =
          (.error (.io .notFound), (Sorter.create ⟨false, ["work"], .name⟩ "spo" 0).take ⟨3, 1, 2⟩,
            FileTree.empty) := rfl
    have hclear : Clear (FileTree.empty.put [".", "work"] .directory) ⟨false, ["work"], .name⟩
        "spo" := by
      have hroot : Place.isRoot [".", "work"] = false := rfl
      have habsent : FileTree.empty.lookup (["."] ++ ["work"]) ≠ some .directory := by
        simp [FileTree.lookup_empty, hroot]
      refine ⟨FileTree.sound_empty.put (List.cons_ne_nil _ _) rfl habsent, fun l hl => ?_,
        fun i => ?_⟩
      · rcases List.mem_pair.1 hl with rfl | rfl
        · rfl
        · exact FileTree.lookup_put hroot [".", "work"]
      · change (FileTree.empty.put _ _).lookup [".", "work", runName "spo" i] ≠ some .directory
        simp [FileTree.lookup_put hroot, FileTree.lookup_empty, Place.isRoot]
    have h₁ := (Reached.create FileTree.empty).push hmissing
    obtain ⟨t₂, h₂, -⟩ := (h₁.elsewhere fun i hi => absurd hi (Nat.not_lt_zero i)).push_of_clear
      hclear ⟨1, 1, 2⟩
    exact ⟨_, t₂, h₂, (stays_within_budget _ _ 0 t₂).2 _ _ h₂, rfl, rfl⟩

end Sorter

end TripleStore
