import TripleStore.Proofs.Working
import TripleStore.Proofs.Dictionary.Build
import TripleStore.Proofs.Sorter.Shared
import TripleStore.Proofs.TripleIndex.Build
import TripleStore.Store.Build

/-!
# What builders write

Whatever their outcome, the operations of the builders write in the private directory, where their
sorters keep runs, and the files that they are for.
-/

namespace TripleStore

open Build (Keeps)

/-! ## Sorters -/

namespace Sorter

variable {α : Type} {folder : Path} {s : Sorter α}

theorem writes_removeRuns {name : String} {files : List Path}
    (hfiles : ∀ p ∈ files, ∃ i, p = folder.child (runName name i)) :
    Disk.Writes folder.place [] (fun _ => True) (liftM (removeRuns files) : Disk Unit) := by
  intro t r t' hsound hf hrun
  rw [Disk.apply_monadLift] at hrun
  obtain ⟨-, rfl⟩ := Prod.mk.inj hrun
  have hoff := offRuns_removeRuns hfiles hsound
  have hwrote := FileTree.Wrote.of_inside (hoff.inside hf)
  exact ⟨⟨[], List.Subset.refl [], hwrote⟩, fun _ _ => ⟨hwrote, trivial⟩⟩

variable [Record α] [Ord α]

theorem keeps_spill (folder : Path) :
    Keeps folder.place (fun s => s.folder = folder) (spill : Build (Sorter α) Unit) := by
  rw [spill]
  refine .get_bind fun s hs => ?_
  split
  · exact .pure ()
  · refine .bind (.disk ?_) fun _ => .modify fun _ h => h
    rw [runPath_eq, hs]
    exact .write_child (runName_ne_dots s.name s.runs) _

theorem keeps_push (folder : Path) (record : α) :
    Keeps folder.place (fun s => s.folder = folder) (push record) := by
  rw [push]
  refine .bind (.modify fun _ h => h) fun _ => .get_bind fun s _ => ?_
  split
  · exact keeps_spill folder
  · exact .pure ()

/-- What a sorter answers from are runs in its folder. -/
theorem writes_finish (hs : s.folder = folder) :
    Disk.Writes folder.place []
      (fun found => ∃ name, ∀ p ∈ found.2, ∃ i, p = folder.child (runName name i)) s.finish := by
  rw [finish]
  split
  · exact .pure ⟨s.name, fun p hp => absurd hp List.not_mem_nil⟩
  · refine .bind ((keeps_spill folder).build hs) fun s' hs' =>
      .bind (.reads (.mapM s'.reads_openRun _)) fun _ _ => .pure ⟨s'.name, fun p hp => ?_⟩
    obtain ⟨i, -, rfl⟩ := List.mem_map.1 hp
    exact ⟨i, by rw [runPath_eq, hs']⟩

theorem writes_drain (hs : s.folder = folder) :
    Disk.Writes folder.place [] (fun _ => True) s.drain :=
  .bind (writes_finish hs) fun _ ⟨_, hfiles⟩ =>
    .bind (writes_removeRuns hfiles) fun _ _ => .ofResult fun _ _ => trivial

end Sorter

/-! ## Index writers -/

namespace IndexWriter

variable {folder : Path} {w : IndexWriter}

theorem keeps_push (folder : Path) (row : Row) :
    Keeps folder.place (fun w => w.byValue.folder = folder) (push row) := by
  rw [push]
  refine .get_bind fun w _ => .bind (.ofResult _) fun _ => .bind (.modify fun _ h => h) fun _ => ?_
  exact .bind (.part (Sorter.keeps_push folder _) (fun _ h => h) fun _ _ _ h => h) fun _ =>
    .modify fun _ h => h

theorem writes_create (folder : Path) (order : RoleOrder) (budget : Nat) :
    Disk.Writes folder.place [] (fun w => w.byValue.folder = folder) (create folder order budget) :=
  .bind (.reads (.requireFolder folder)) fun _ _ => .pure rfl

theorem writes_finish (hw : w.byValue.folder = folder) {target : Path}
    (hout : folder.place ∉ target.parent.track) :
    Disk.Writes folder.place [target.place] (fun _ => True) (w.finish target) :=
  .bind (.replaceFile (.bind (Sorter.writes_drain hw) fun _ _ => .bind (.reads (.ofResult _))
    fun _ _ => .pure trivial) folder.place_ne_nil hout) fun _ _ => .pure trivial

end IndexWriter

/-! ## Builds of dictionaries -/

/-- A dictionary is written as a file beside a directory. -/
theorem Dictionary.writes_writeFile {f : Place} {target : Path} (hne : f ≠ [])
    (hout : f ∉ target.parent.track) (strings : List ByteArray) (flags aux : UInt16) :
    Disk.Writes f [target.place] (fun _ => True) (writeFile strings flags aux target) := by
  rw [writeFile_eq]
  exact .bind (.ofResult fun _ _ => trivial) fun _ _ =>
    .bind (.replaceFile (.pure trivial) hne hout) fun _ _ => .pure trivial

/-- A dictionary is written as a file in a directory. -/
theorem Dictionary.writes_writeFile_inside (target : Path) (strings : List ByteArray)
    (flags aux : UInt16) : Disk.Writes target.parent.place [] (fun _ => True)
      (writeFile strings flags aux target) := by
  rw [writeFile_eq]
  exact .bind (.ofResult fun _ _ => trivial) fun _ _ =>
    .bind (.replaceFile_inside (.pure trivial)) fun _ _ => .pure trivial

namespace DictionaryBuilder

/-- The build works in a private directory. -/
structure WorksIn (w : Workspace) (b : DictionaryBuilder) : Prop where
  workspace : b.workspace = w
  strings : b.strings.folder = w.path

theorem keeps_add (w : Workspace) (string : ByteArray) :
    Keeps w.path.place (WorksIn w) (add string) :=
  .part (Sorter.keeps_push w.path string) (fun _ h => h.strings) fun _ _ h hs => ⟨h.workspace, hs⟩

end DictionaryBuilder

/-! ## Builds of indices -/

namespace IndexBuilder

variable {w : Workspace} {b : IndexBuilder} {folder : Path}

/-- The build works in a private directory. -/
structure WorksIn (w : Workspace) (b : IndexBuilder) : Prop where
  workspace : b.workspace = w
  sorter : ∀ order, (b.sorter order).folder = w.path

theorem keeps_add (w : Workspace) (triple : Triple) :
    Keeps w.path.place (WorksIn w) (add triple) := by
  rw [add]
  refine .bind (.part (Sorter.keeps_push w.path _) (fun b h => h.sorter .spo) ?_) fun _ =>
    .bind (.part (Sorter.keeps_push w.path _) (fun b h => h.sorter .pso) ?_) fun _ =>
      .bind (.part (Sorter.keeps_push w.path _) (fun b h => h.sorter .ops) ?_) fun _ =>
        .modify fun b h => ⟨h.workspace, fun order => ?_⟩
  · rintro b s h hs
    refine ⟨h.workspace, fun order => ?_⟩
    cases order with
    | spo => exact hs
    | pso => exact h.sorter .pso
    | ops => exact h.sorter .ops
  · rintro b s h hs
    refine ⟨h.workspace, fun order => ?_⟩
    cases order with
    | spo => exact h.sorter .spo
    | pso => exact hs
    | ops => exact h.sorter .ops
  · rintro b s h hs
    refine ⟨h.workspace, fun order => ?_⟩
    cases order with
    | spo => exact h.sorter .spo
    | pso => exact h.sorter .pso
    | ops => exact hs
  · cases order with
    | spo => exact h.sorter .spo
    | pso => exact h.sorter .pso
    | ops => exact h.sorter .ops

theorem writes_writeOrder (h : b.WorksIn w) (hout : w.path.place ∉ folder.track)
    (order : RoleOrder) :
    Disk.Writes w.path.place [folder.place ++ [order.fileName]] (fun _ => True)
      (b.writeOrder folder order) := by
  have hparent : w.path.place ∉ (folder.child order.fileName).parent.track := by
    rwa [Path.track_parent (folder.names_child_ne_nil _), Path.trail_child]
  rw [← Path.place_child folder order.fileName_ne_dots, writeOrder, h.workspace]
  exact .bind (IndexWriter.writes_create w.path order b.budget) fun _ hv =>
    .bind (Sorter.writes_drain (h.sorter order)) fun rows _ =>
      .bind ((Keeps.forM fun row _ => IndexWriter.keeps_push w.path row).build hv) fun _ hv =>
        .bind (IndexWriter.writes_finish hv hparent) fun _ _ => .pure trivial

end IndexBuilder

/-! ## Builds of composite dictionaries -/

namespace VocabularyBuilder

variable {w : Workspace}

/-- The first pass works in a private directory. -/
structure WorksIn (w : Workspace) (b : VocabularyBuilder) : Prop where
  workspace : b.workspace = w
  candidates : b.candidates.folder = w.path

theorem keeps_visit (w : Workspace) (term : String) :
    Keeps w.path.place (WorksIn w) (visit term) := by
  rw [visit]
  refine .bind (.ofResult _) fun _ => .get_bind fun b _ =>
    .bind (.modify fun b h => ⟨h.workspace, h.candidates⟩) fun _ => ?_
  split
  · exact .pure ()
  split
  · exact .pure ()
  · exact .part (Sorter.keeps_push w.path _) (fun b h => h.candidates) fun b s h hs =>
      ⟨h.workspace, hs⟩

end VocabularyBuilder

namespace CompositeBuilder

variable {w : Workspace} {b : CompositeBuilder} {folder : Path}

/-- The second pass works in a private directory. -/
structure WorksIn (w : Workspace) (b : CompositeBuilder) : Prop where
  workspace : b.workspace = w
  entries : b.entries.folder = w.path

theorem keeps_visit (w : Workspace) (term : String) :
    Keeps w.path.place (WorksIn w) (visit term) := by
  rw [visit]
  exact .get_bind fun b _ => .bind (.ofResult _) fun _ =>
    .bind (.modify fun b h => ⟨h.workspace, h.entries⟩) fun _ => .bind (.ofResult _) fun entry =>
      .part (Sorter.keeps_push w.path entry) (fun b h => h.entries) fun b s h hs =>
        ⟨h.workspace, hs⟩

theorem writes_writeFiles (h : b.WorksIn w) (hout : w.path.place ∉ folder.track) :
    Disk.Writes w.path.place
      [folder.place ++ [Composite.entriesFile], folder.place ++ [Composite.sharedFile]]
      (fun _ => True) (b.writeFiles folder) := by
  have hparent : w.path.place ∉ (folder.child Composite.entriesFile).parent.track := by
    rwa [Path.track_parent (folder.names_child_ne_nil _), Path.trail_child]
  have hentries : (folder.child Composite.entriesFile).place =
      folder.place ++ [Composite.entriesFile] := Path.place_child folder (by decide)
  rw [← hentries, writeFiles, h.workspace]
  exact .bind (.reads (.requireFolder w.path)) fun _ _ =>
    .bind (Sorter.writes_drain h.entries) fun _ _ =>
      .bind (Dictionary.writes_writeFile w.path.place_ne_nil hparent _ _ _) fun _ _ =>
        .bind (.copy_beside (by decide)) fun _ _ => .pure trivial

end CompositeBuilder

theorem Composite.reads_openDictionary (p : Path) : Disk.Reads (openDictionary p) :=
  .bind (.look _) fun content => .ofResult (Dictionary.ofBytes content)

theorem VocabularyBuilder.writes_freeze {w : Workspace} {b : VocabularyBuilder}
    (h : b.WorksIn w) : ∃ body : Disk CompositeBuilder, b.freeze = w.guarding body ∧
      Disk.Writes w.path.place [] (CompositeBuilder.WorksIn w) body := by
  refine ⟨_, by rw [freeze, h.workspace], ?_⟩
  have hinside := Dictionary.writes_writeFile_inside w.sharedPath
  rw [Workspace.sharedPath, Path.place_parent_child] at hinside
  exact .bind (.reads (.requireFolder w.path)) fun _ _ =>
    .bind (Sorter.writes_drain h.candidates) fun _ _ => .bind (hinside _ 0 0) fun _ _ =>
      .bind (.reads (Composite.reads_openDictionary _)) fun _ _ => .pure ⟨rfl, rfl⟩

end TripleStore
