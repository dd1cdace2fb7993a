import TripleStore.Proofs.Disk.Refiled
import TripleStore.Proofs.Sorter.Runs

/-!
# Sorters that share their runs

Two sorters of one name in one folder write their runs to the same files, so a sorter may find there
what it did not write. What it does to the files does not depend on that: taking records
(`push_cases`), it writes runs of the numbers from its next one on (`push_of_clear`), and once it
has answered its records, none of its runs is left (`drain_of_clear`). Hence a sorter whose first
run another one has removed does not answer any (`drain_of_missing`), and nothing happens to a
sorter that has not written a run (`Holds.of_runs_eq_zero`).
-/

namespace TripleStore

namespace Sorter

variable {α : Type} {s : Sorter α} {folder : Path} {name : String} {t t' : FileTree} {i k : Nat}

/-- The files of the runs from a number on. -/
def runsFrom (folder : Path) (name : String) (k : Nat) : Set Place :=
  {q | ∃ i, k ≤ i ∧ q = folder.place ++ [runName name i]}

theorem mem_runsFrom : folder.place ++ [runName name i] ∈ runsFrom folder name k ↔ k ≤ i := by
  constructor
  · rintro ⟨j, hj, heq⟩
    have hnames : runName name i = runName name j := by simpa using heq
    rwa [(runName_injective hnames).2]
  · exact fun hi => ⟨i, hi, rfl⟩

theorem runsFrom_mono {j : Nat} (h : k ≤ j) : runsFrom folder name j ⊆ runsFrom folder name k := by
  rintro _ ⟨i, hi, heq⟩
  exact ⟨i, h.trans hi, heq⟩

/-- Nothing is in the way of runs. -/
structure Clear (t : FileTree) (folder : Path) (name : String) : Prop where
  sound : t.Sound
  hasFolder : t.HasFolder folder
  free : ∀ i, t.lookup (folder.place ++ [runName name i]) ≠ some .directory

/-- Nothing is in the way in the root of a new file system. -/
theorem clear_root (name : String) : Clear FileTree.empty ⟨true, [], .slash⟩ name := by
  refine ⟨FileTree.sound_empty, fun l hl => ?_, fun i => ?_⟩
  · obtain rfl : l = ["/"] := List.mem_singleton.1 hl
    rfl
  · simp [FileTree.lookup_empty, Place.isRoot_append, Path.place_ne_nil]

theorem Clear.of_refiled {places : Set Place} (h : Clear t folder name) (hr : t.Refiled places t') :
    Clear t' folder name :=
  ⟨hr.sound, hr.hasFolder h.hasFolder, fun i hdir => h.free i ((hr.directory _).1 hdir)⟩

theorem Clear.names (h : Clear t s.folder s.name) (i : Nat) : t.Names (s.runPath i) :=
  FileTree.names_child h.hasFolder (runName_ne_dots s.name i)

theorem place_runPath (s : Sorter α) (i : Nat) :
    (s.runPath i).place = s.folder.place ++ [runName s.name i] :=
  Path.place_child s.folder (runName_ne_dots s.name i)

/-! ## Taking records -/

/-- The sorter after its buffer was written out. -/
def spilled (s : Sorter α) : Sorter α :=
  if s.buffer.isEmpty then s else { s with buffer := [], held := 0, runs := s.runs + 1 }

theorem folder_spilled (s : Sorter α) : s.spilled.folder = s.folder := by
  unfold spilled
  split <;> rfl

theorem name_spilled (s : Sorter α) : s.spilled.name = s.name := by
  unfold spilled
  split <;> rfl

theorem budget_spilled (s : Sorter α) : s.spilled.budget = s.budget := by
  unfold spilled
  split <;> rfl

theorem runs_le_spilled (s : Sorter α) : s.runs ≤ s.spilled.runs := by
  unfold spilled
  split
  · exact Nat.le_refl _
  · exact Nat.le_succ _

variable [Record α] {a : α}

/-- The sorter after it took in a record. -/
def pushed (a : α) (s : Sorter α) : Sorter α :=
  if (s.take a).isFull then (s.take a).spilled else s.take a

theorem folder_pushed (a : α) (s : Sorter α) : (s.pushed a).folder = s.folder := by
  unfold pushed
  split
  · exact folder_spilled _
  · rfl

theorem name_pushed (a : α) (s : Sorter α) : (s.pushed a).name = s.name := by
  unfold pushed
  split
  · exact name_spilled _
  · rfl

theorem budget_pushed (a : α) (s : Sorter α) : (s.pushed a).budget = s.budget := by
  unfold pushed
  split
  · exact budget_spilled _
  · rfl

theorem runs_le_pushed (a : α) (s : Sorter α) : s.runs ≤ (s.pushed a).runs := by
  unfold pushed
  split
  · exact runs_le_spilled (s.take a)
  · exact Nat.le_refl s.runs

/-- A run is written when the records come up to the budget. -/
theorem runs_pushed_eq_zero : (s.pushed a).runs = 0 ↔
    s.runs = 0 ∧ s.held + Record.footprint a < s.budget := by
  have hfull : (s.take a).isFull = true ↔ s.budget ≤ s.held + Record.footprint a :=
    decide_eq_true_iff
  unfold pushed
  split
  · have hspilled : (s.take a).spilled.runs = s.runs + 1 := rfl
    have := hfull.1 ‹_›
    omega
  · have hsame : (s.take a).runs = s.runs := rfl
    have := mt hfull.2 ‹_›
    omega

theorem held_pushed (h : (s.pushed a).runs = 0) :
    (s.pushed a).held = s.held + Record.footprint a := by
  have hlt := (runs_pushed_eq_zero.1 h).2
  have hfull : (s.take a).isFull = false := decide_eq_false (Nat.not_le.2 hlt)
  rw [pushed, if_neg (by rw [hfull]; decide)]
  rfl

variable [Ord α]

/-- **A record is taken into the buffer.** When that reaches the budget, the buffer is written out
as a run, or stays as it is because the run cannot be written. -/
theorem push_cases {s' : Sorter α} {r : Result Unit} (hrun : (push a).apply s t = (r, s', t')) :
    (s.take a).held < s.budget ∧ r = .ok () ∧ s' = s.take a ∧ t' = t ∨
    s.budget ≤ (s.take a).held ∧ r = .ok () ∧ s' = (s.take a).spilled ∧
      t.write (s.runPath s.runs) (encodeRun (sorted (s.take a).buffer.reverse)) = .ok t' ∨
    s.budget ≤ (s.take a).held ∧ (∃ fault, r = .error (.io fault)) ∧ s' = s.take a ∧ t' = t := by
  have hfull : (s.take a).isFull = true ↔ s.budget ≤ (s.take a).held := decide_eq_true_iff
  rw [apply_push] at hrun
  split at hrun
  · have hheld := hfull.1 ‹_›
    cases hwrite : t.write (s.runPath s.runs) (encodeRun (sorted (s.take a).buffer.reverse)) with
    | ok t₁ =>
      rw [apply_spill_of_ok (s := s.take a) rfl hwrite] at hrun
      obtain ⟨rfl, rfl, rfl⟩ : _ ∧ _ ∧ _ := by simpa using hrun
      exact .inr (.inl ⟨hheld, rfl, rfl, rfl⟩)
    | error fault =>
      rw [apply_spill_of_error (s := s.take a) rfl hwrite] at hrun
      obtain ⟨rfl, rfl, rfl⟩ : _ ∧ _ ∧ _ := by simpa using hrun
      exact .inr (.inr ⟨hheld, ⟨fault, rfl⟩, rfl, rfl⟩)
  · have hheld := mt hfull.2 ‹_›
    obtain ⟨rfl, rfl, rfl⟩ : _ ∧ _ ∧ _ := by simpa using hrun
    exact .inl ⟨Nat.lt_of_not_le hheld, rfl, rfl, rfl⟩

theorem spill_of_clear (h : Clear t s.folder s.name) :
    ∃ t', (spill : Build (Sorter α) Unit).apply s t = (.ok (), s.spilled, t') ∧
      t.Refiled (runsFrom s.folder s.name s.runs) t' := by
  rw [spilled]
  split
  · exact ⟨t, apply_spill_of_isEmpty ‹_› t, .refl h.sound⟩
  · obtain ⟨t', hwrite, hplaced⟩ := h.hasFolder.write h.sound (runName_ne_dots s.name s.runs)
      (h.free _) (encodeRun (sorted s.buffer.reverse))
    exact ⟨t', apply_spill_of_ok (Bool.eq_false_iff.2 ‹_›) hwrite,
      .of_placed hplaced (mem_runsFrom.2 (Nat.le_refl _))⟩

/-- **Taking in a record changes no run that was written before**, and no file at all as long as
none was. -/
theorem push_of_clear (h : Clear t s.folder s.name) (a : α) :
    ∃ t', (push a : Build (Sorter α) Unit).apply s t = (.ok (), s.pushed a, t') ∧
      t.Refiled (runsFrom s.folder s.name s.runs) t' ∧ ((s.pushed a).runs = 0 → t' = t) := by
  rw [apply_push, pushed]
  split
  · obtain ⟨t', hspill, hrefiled⟩ := spill_of_clear (s := s.take a) h
    exact ⟨t', hspill, hrefiled, fun hruns => absurd hruns (Nat.succ_ne_zero s.runs)⟩
  · exact ⟨t, rfl, .refl h.sound, fun _ => rfl⟩

/-- The records of a sorter that has not written a run are safe from others. -/
theorem Holds.of_runs_eq_zero {records : List α} (h : Holds folder name t s records)
    (hruns : s.runs = 0) (hclear : Clear t' folder name) : Holds folder name t' s records where
  folder_eq := h.folder_eq
  name_eq := h.name_eq
  hasFolder := hclear.hasFolder
  free := hclear.free
  fits := h.fits
  runs := by
    obtain ⟨lists, hlength, -, -, hperm⟩ := h.runs
    obtain rfl : lists = [] := List.length_eq_zero_iff.1 (hlength.trans hruns)
    exact ⟨[], hlength, by simp, by simp, hperm⟩

/-! ## Answering records -/

omit [Record α] [Ord α] in
theorem attempt_removeFile_of_clear (h : Clear t s.folder s.name) (i : Nat) :
    t.Refiled (runsFrom s.folder s.name 0)
      ((Disk.update (·.removeFile (s.runPath i))).apply t).2 ∧
    ((Disk.update (·.removeFile (s.runPath i))).apply t).2.lookup
      (s.folder.place ++ [runName s.name i]) = none ∧
    ∀ q, t.lookup q = none →
      ((Disk.update (·.removeFile (s.runPath i))).apply t).2.lookup q = none := by
  have hroot : (s.folder.place ++ [runName s.name i]).isRoot = false :=
    Place.isRoot_append s.folder.place_ne_nil
  rcases hrun : (Disk.update (·.removeFile (s.runPath i))).apply t with ⟨r, t'⟩
  cases hentry : t.lookup (s.folder.place ++ [runName s.name i]) with
  | none =>
    have hsame : t' = t := by
      cases r with
      | error e => exact Disk.eq_of_update_error hrun
      | ok u =>
        obtain ⟨⟨content, hfile⟩, -⟩ :=
          FileTree.of_removeFile_eq_ok (Disk.apply_update_eq_ok.1 hrun)
        rw [place_runPath, hentry] at hfile
        cases hfile
    rw [hsame]
    exact ⟨.refl h.sound, hentry, fun _ => id⟩
  | some entry =>
    cases entry with
    | directory => exact absurd hentry (h.free i)
    | file content =>
      have hremove := (h.names i).removeFile rfl (by rw [place_runPath, hentry])
      rw [place_runPath] at hremove
      obtain ⟨-, rfl⟩ := Prod.mk.inj (hrun.symm.trans (Disk.apply_update hremove))
      refine ⟨.of_drop h.sound hroot (by simp) hentry (mem_runsFrom.2 (Nat.zero_le i)), ?_, ?_⟩
      · rw [FileTree.lookup_drop hroot, if_pos rfl]
      · intro q hq
        rw [FileTree.lookup_drop hroot]
        split
        · rfl
        · exact hq

omit [Record α] [Ord α] in
/-- No run is left of those that are removed. -/
theorem removeRuns_of_clear (l : List Nat) (h : Clear t s.folder s.name) :
    let t' := (removeRuns (l.map s.runPath) t).2
    t.Refiled (runsFrom s.folder s.name 0) t' ∧ (∀ q, t.lookup q = none → t'.lookup q = none) ∧
      ∀ i ∈ l, t'.lookup (s.folder.place ++ [runName s.name i]) = none := by
  induction l generalizing t with
  | nil => exact ⟨.refl h.sound, fun _ => id, by simp⟩
  | cons i l ih =>
    obtain ⟨hrefiled, hgone, hstay⟩ := attempt_removeFile_of_clear h i
    obtain ⟨hrefiled', hstay', hgone'⟩ := ih (h.of_refiled hrefiled)
    refine ⟨hrefiled.trans hrefiled', fun q hq => hstay' q (hstay q hq), ?_⟩
    intro j hj
    rcases List.mem_cons.1 hj with rfl | hj
    · exact hstay' _ hgone
    · exact hgone' j hj

omit [Ord α] in
theorem reads_openRun (s : Sorter α) (i : Nat) : Disk.Reads (s.openRun i) :=
  .bind (.look _) fun _ => .ofResult _

/-- A sorter that finishes writes its buffer out if it has runs, and opens them all. -/
theorem finish_of_clear {stream : Stream α} {files : List Path} (h : Clear t s.folder s.name)
    (hrun : s.finish.apply t = (.ok (stream, files), t')) :
    (s.runs = 0 ∧ t' = t ∧ files = []) ∨
      (s.runs ≠ 0 ∧ t.Refiled (runsFrom s.folder s.name s.runs) t' ∧
        files = (List.range s.spilled.runs).map s.spilled.runPath) := by
  rw [finish] at hrun
  split at hrun
  · obtain ⟨hanswer, rfl⟩ := Prod.mk.inj hrun
    exact .inl ⟨‹_›, rfl, (Prod.mk.inj (Except.ok.inj hanswer)).2.symm⟩
  · obtain ⟨t₁, hspill, hrefiled⟩ := spill_of_clear h
    rw [Disk.apply_bind_of_ok (Disk.apply_build hspill)] at hrun
    obtain ⟨firsts, t₂, hopen, hrest⟩ := Disk.apply_bind_eq_ok.1 hrun
    obtain rfl := (Disk.Reads.mapM s.spilled.reads_openRun _).eq hopen
    obtain ⟨hanswer, rfl⟩ := Prod.mk.inj hrest
    exact .inr ⟨‹_›, hrefiled, (Prod.mk.inj (Except.ok.inj hanswer)).2.symm⟩

/-- **Once a sorter has answered its records, none of its runs is left.** -/
theorem drain_of_clear {records : List α} (h : Clear t s.folder s.name)
    (hrun : (drain s).apply t = (.ok records, t')) :
    t.Refiled (runsFrom s.folder s.name 0) t' ∧ (s.runs = 0 → t' = t) ∧
      (1 ≤ s.runs → t'.lookup (s.folder.place ++ [runName s.name 0]) = none) := by
  obtain ⟨⟨stream, files⟩, t₁, hfinish, hrest⟩ := Disk.apply_bind_eq_ok.1 hrun
  rw [Disk.apply_bind_of_ok (Disk.apply_monadLift (removeRuns files) t₁)] at hrest
  obtain ⟨-, rfl⟩ := Prod.mk.inj hrest
  rcases finish_of_clear h hfinish with ⟨hruns, rfl, rfl⟩ | ⟨hruns, hrefiled, rfl⟩
  · exact ⟨.refl h.sound, fun _ => rfl, fun hpos => by omega⟩
  · have hclear : Clear t₁ s.spilled.folder s.spilled.name := by
      rw [folder_spilled, name_spilled]
      exact h.of_refiled hrefiled
    obtain ⟨hremoved, -, hgone⟩ := removeRuns_of_clear (List.range s.spilled.runs) hclear
    rw [folder_spilled, name_spilled] at hremoved hgone
    refine ⟨(hrefiled.mono (runsFrom_mono (Nat.zero_le _))).trans hremoved,
      fun hzero => absurd hzero hruns, fun hpos => hgone 0 (List.mem_range.2 ?_)⟩
    exact Nat.lt_of_lt_of_le hpos (runs_le_spilled s)

/-- **A sorter whose first run is missing answers no records.** -/
theorem drain_of_missing (h : Clear t s.folder s.name) (hruns : 1 ≤ s.runs)
    (hmissing : t.lookup (s.folder.place ++ [runName s.name 0]) = none) :
    ((drain s).apply t).1 = .error (.io .notFound) := by
  obtain ⟨t₁, hspill, hrefiled⟩ := spill_of_clear h
  have hmissing₁ : t₁.lookup (s.folder.place ++ [runName s.name 0]) = none := by
    rw [hrefiled.outside _ fun hmem => by have := mem_runsFrom.1 hmem; omega, hmissing]
  have hopen : ((s.spilled.openRun 0).apply t₁).1 = .error (.io .notFound) := by
    refine Disk.apply_bind_of_error ?_
    have hnames := (h.of_refiled hrefiled).names 0
    have hplace : (s.spilled.runPath 0) = s.runPath 0 := by
      rw [runPath_eq, runPath_eq, folder_spilled, name_spilled]
    rw [hplace]
    change ((t₁.read (s.runPath 0)).mapError StoreError.io) = _
    rw [FileTree.read, hnames.find_of_none (by rw [place_runPath, hmissing₁])]
    rfl
  obtain ⟨n, hn⟩ := Nat.exists_eq_add_of_le' (hruns.trans (runs_le_spilled s))
  refine Disk.apply_bind_of_error ?_
  rw [finish, if_neg (by omega), Disk.apply_bind_of_ok (Disk.apply_build hspill)]
  refine Disk.apply_bind_of_error ?_
  rw [hn, List.range_succ_eq_map, List.mapM_cons]
  exact Disk.apply_bind_of_error hopen

end Sorter

end TripleStore
