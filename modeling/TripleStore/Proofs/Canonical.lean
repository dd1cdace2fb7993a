import TripleStore.Proofs.Dictionary.Build
import TripleStore.Proofs.TripleIndex.Build

/-!
# Files that depend on their content alone

A builder goes through bounded buffers, runs on disk and their merge. None of that shows in what it
writes: the file of a dictionary is the one that a writer leaves after the distinct strings in
ascending order, and the file of an index is the one that a writer leaves after the sorted rows
(`canonical_files`). So the order in which a builder takes its items, its budget and the tree that
it works on do not matter, and for a dictionary repetitions do not either.
-/

namespace TripleStore

/-! ## Dictionaries -/

namespace DictionaryBuilder

/-- A build of a dictionary can succeed: nothing is in its way, runs are not to be compressed, and
the length of each string has 64 bits. -/
structure Accepts (t : FileTree) (settings : Settings) (strings : List ByteArray)
    (target : Destination) : Prop where
  ready : t.ReadyForFile settings.workPath target.path
  plain : settings.compressRuns = false
  small : ∀ s ∈ strings, s.size < limit64

/-- Every build that can succeed and is given just these strings, in any order and any number,
succeeds: it answers the count and leaves the file at its destination. -/
def Writes (strings : List ByteArray) (count : Nat) (file : ByteArray) : Prop :=
  ∀ t settings given target, Accepts t settings given target →
    (∀ s, s ∈ given ↔ s ∈ strings) →
    ∃ t', (build settings given target).apply t = (.ok count, t') ∧
      t'.load target.path = .ok file

/-- **All builds from the same strings write the dictionary of the distinct ones.** -/
theorem writes_of_pushAll {strings distinct : List ByteArray} {w : DictionaryWriter}
    (hlt : StrictlyAscending distinct) (hmem : ∀ s, s ∈ distinct ↔ s ∈ strings)
    (hpush : (DictionaryWriter.create 0 0).pushAll distinct = .ok w) :
    Writes strings distinct.length w.file := by
  intro t settings given target ha hgiven
  obtain ⟨file, t', hfile, hrun, hload⟩ := file_of_build ha.ready ha.plain ha.small hlt
    fun s => (hgiven s).trans (hmem s).symm
  refine ⟨t', hrun, ?_⟩
  obtain ⟨w', hpush', heq⟩ := bind_eq_ok.1 hfile
  obtain rfl : w = w' := Except.ok.inj (hpush.symm.trans hpush')
  obtain ⟨rfl, -⟩ := Prod.mk.inj (Except.ok.inj heq)
  exact hload

end DictionaryBuilder

/-! ## Indices -/

/-- Every writer of these rows that nothing is in the way of succeeds, and leaves the file at its
destination. -/
def IndexWriter.Writes (order : RoleOrder) (rows : List Row) (file : ByteArray) : Prop :=
  ∀ t folder budget target, Ready t folder order target →
    ∃ t', (write folder order budget rows target).apply t = (.ok rows.length, t') ∧
      t'.load target = .ok file

/-- Every build of just these triples, in any order, that nothing is in the way of succeeds, and
leaves the file in the directory that it publishes. -/
def IndexBuilder.Writes (triples : List Triple) (order : RoleOrder) (file : ByteArray) : Prop :=
  ∀ (t : FileTree) settings given target, t.Ready settings.workPath target.path →
    settings.compressRuns = false → given.Perm triples →
    ∃ t', (build settings given target).apply t = (.ok triples.length, t') ∧
      t'.load (target.path.child order.fileName) = .ok file

variable {order : RoleOrder} {rows : List Row}

/-- **All writers of the same rows write the same file.** -/
theorem IndexWriter.writes_fileOf (hrows : Ascending rows) :
    Writes order rows (TripleIndex.fileOf order rows) := by
  intro t folder budget target hr
  obtain ⟨content, t', hrun, -, hfile, hfiled, hothers⟩ := write_of_ready hr hrows budget
  have hnames : t'.Names target := ⟨hr.names.proper, fun l hl => by
    have hdir := hr.names.leads l hl
    rw [hothers l (fun heq => hr.old (heq ▸ hdir)) fun i heq => hr.free i (heq ▸ hdir), hdir]⟩
  exact ⟨t', hrun, hnames.load hr.ending (hfiled.eq_fileOf ▸ hfile)⟩

/-- **All builds of the same triples write the same files**, those of the sorted rows. -/
theorem IndexBuilder.writes_fileOf (triples : List Triple) (order : RoleOrder) :
    Writes triples order
      (TripleIndex.fileOf order (Sorter.sorted (triples.map (·.toRow order)))) := by
  intro t settings given target hr hc hperm
  obtain ⟨t', hrun, hfiles⟩ := files_of_build hr hc given
  obtain ⟨content, hload, hfiled⟩ := hfiles order
  rw [hfiled.eq_fileOf, Sorter.sorted_eq_of_perm (hperm.map _)] at hload
  rw [hperm.length_eq] at hrun
  exact ⟨t', hrun, hload⟩

/-! ## Both -/

/-- **What single-pass builders write depends on their items alone.** From any strings, a build of a
dictionary writes the file that a writer of the distinct strings in ascending order leaves at its
destination, and answers their number as the writer does; from any triples, a build of indices
writes, for each order, the file that any writer of the sorted rows leaves. Neither the arrangement
of the items, for strings repetitions included, nor budgets nor trees make a difference. -/
theorem canonical_files (strings : List ByteArray) (triples : List Triple) :
    (∃ distinct w file, StrictlyAscending distinct ∧ (∀ s, s ∈ distinct ↔ s ∈ strings) ∧
      (DictionaryWriter.create 0 0).pushAll distinct = .ok w ∧
      w.Writes distinct.length file ∧
      DictionaryBuilder.Writes strings distinct.length file) ∧
    ∀ order, ∃ file,
      IndexWriter.Writes order (Sorter.sorted (triples.map (·.toRow order))) file ∧
      IndexBuilder.Writes triples order file := by
  refine ⟨?_, fun order => ⟨_, IndexWriter.writes_fileOf (Sorter.ascending_sorted _),
    IndexBuilder.writes_fileOf triples order⟩⟩
  have hlt := strictlyAscending_runLengths (Sorter.ascending_sorted strings)
  have hmem : ∀ s, s ∈ (runLengths (Sorter.sorted strings)).map (·.1) ↔ s ∈ strings := fun s => by
    rw [mem_map_fst_runLengths, Sorter.mem_sorted]
  obtain ⟨w, hpush, hnoted, -⟩ :=
    DictionaryWriter.pushAll_of_noted _ (DictionaryWriter.noted_create 0 0) hlt
  have hwrites := w.writes_file
  rw [DictionaryWriter.count_of_noted hnoted] at hwrites
  exact ⟨_, w, w.file, hlt, hmem, hpush, hwrites,
    DictionaryBuilder.writes_of_pushAll hlt hmem hpush⟩

/-- A writer can sort in the root of the file system and write to the working directory. -/
theorem IndexWriter.ready_roots (order : RoleOrder) :
    Ready FileTree.empty ⟨true, [], .slash⟩ order ⟨false, ["out"], .name⟩ where
  sound := FileTree.sound_empty
  hasFolder l hl := by
    obtain rfl : l = ["/"] := List.mem_singleton.1 hl
    rfl
  free i := by simp [FileTree.lookup_empty, Place.isRoot_append, Path.place_ne_nil]
  names := ⟨rfl, fun l hl => by
    obtain rfl : l = ["."] := List.mem_singleton.1 hl
    rfl⟩
  ending := rfl
  old := by simp [FileTree.lookup_empty, Path.isRoot_place (p := ⟨false, ["out"], .name⟩) rfl]
  apart i := by simp [Path.place, Place.start, Place.follow]

/-- Two strings, one of them twice, once more the other way round with a budget of one, and through
a writer; two triples in both arrangements, and through a writer that sorts in the root of the file
system. -/
theorem canonical_files_rearranged :
    (∃ n w file t₁ t₂ t₃,
      (DictionaryBuilder.build Settings.default [⟨#[2]⟩, ⟨#[1]⟩, ⟨#[2]⟩]
        ⟨⟨true, ["out"], .name⟩, "/out"⟩).apply FileTree.empty = (.ok n, t₁) ∧
      t₁.load ⟨true, ["out"], .name⟩ = .ok file ∧
      (DictionaryBuilder.build { Settings.default with sortBufferBytes := 1 } [⟨#[1]⟩, ⟨#[2]⟩]
        ⟨⟨true, ["out"], .name⟩, "/out"⟩).apply FileTree.empty = (.ok n, t₂) ∧
      t₂.load ⟨true, ["out"], .name⟩ = .ok file ∧
      (DictionaryWriter.finish w ⟨false, ["out"], .name⟩).apply FileTree.empty = (.ok n, t₃) ∧
      t₃.load ⟨false, ["out"], .name⟩ = .ok file) ∧
    ∃ file t₁ t₂ t₃,
      (IndexBuilder.build Settings.default [⟨3, 1, 2⟩, ⟨1, 1, 2⟩]
        ⟨⟨true, ["out"], .name⟩, "/out"⟩).apply FileTree.empty = (.ok 2, t₁) ∧
      t₁.load ⟨true, ["out", "spo"], .name⟩ = .ok file ∧
      (IndexBuilder.build Settings.default [⟨1, 1, 2⟩, ⟨3, 1, 2⟩]
        ⟨⟨true, ["out"], .name⟩, "/out"⟩).apply FileTree.empty = (.ok 2, t₂) ∧
      t₂.load ⟨true, ["out", "spo"], .name⟩ = .ok file ∧
      (IndexWriter.write ⟨true, [], .slash⟩ .spo 1
        (Sorter.sorted ([⟨3, 1, 2⟩, ⟨1, 1, 2⟩].map (Triple.toRow · .spo)))
        ⟨false, ["out"], .name⟩).apply FileTree.empty = (.ok 2, t₃) ∧
      t₃.load ⟨false, ["out"], .name⟩ = .ok file := by
  have hfile : FileTree.empty.ReadyForFile Settings.default.workPath ⟨true, ["out"], .name⟩ :=
    FileTree.readyForFile_empty (by decide) (by decide) rfl (by decide) (by decide) (by decide)
  obtain ⟨⟨distinct, w, strings, -, -, -, hwriter, hstrings⟩, htriples⟩ :=
    canonical_files [⟨#[2]⟩, ⟨#[1]⟩, ⟨#[2]⟩] [⟨3, 1, 2⟩, ⟨1, 1, 2⟩]
  obtain ⟨t₁, hrun₁, hload₁⟩ := hstrings FileTree.empty Settings.default
    [⟨#[2]⟩, ⟨#[1]⟩, ⟨#[2]⟩] ⟨⟨true, ["out"], .name⟩, "/out"⟩ ⟨hfile, rfl, by decide⟩
    fun _ => Iff.rfl
  obtain ⟨t₂, hrun₂, hload₂⟩ := hstrings FileTree.empty
    { Settings.default with sortBufferBytes := 1 } [⟨#[1]⟩, ⟨#[2]⟩]
    ⟨⟨true, ["out"], .name⟩, "/out"⟩ ⟨hfile, rfl, by decide⟩ fun s => by simp; tauto
  obtain ⟨t₀, hfinish⟩ := hwriter.finishes FileTree.empty ⟨false, ["out"], .name⟩
    (FileTree.allowsFile_empty (by decide) rfl (by decide))
  obtain ⟨-, hload₀⟩ := hwriter.leaves _ _ _ _ hfinish
  refine ⟨⟨_, w, strings, t₁, t₂, t₀, hrun₁, hload₁, hrun₂, hload₂, hfinish, hload₀⟩, ?_⟩
  obtain ⟨file, hwriters, hbuilds⟩ := htriples .spo
  obtain ⟨t₃, hrun₃, hload₃⟩ := hbuilds FileTree.empty Settings.default [⟨3, 1, 2⟩, ⟨1, 1, 2⟩]
    ⟨⟨true, ["out"], .name⟩, "/out"⟩ FileTree.ready_out rfl (List.Perm.refl _)
  obtain ⟨t₄, hrun₄, hload₄⟩ := hbuilds FileTree.empty Settings.default [⟨1, 1, 2⟩, ⟨3, 1, 2⟩]
    ⟨⟨true, ["out"], .name⟩, "/out"⟩ FileTree.ready_out rfl (List.Perm.swap _ _ _)
  obtain ⟨t₅, hrun₅, hload₅⟩ := hwriters FileTree.empty ⟨true, [], .slash⟩ 1
    ⟨false, ["out"], .name⟩ (IndexWriter.ready_roots .spo)
  rw [Sorter.length_sorted] at hrun₅
  exact ⟨file, t₃, t₄, t₅, hrun₃, hload₃, hrun₄, hload₄, hrun₅, hload₅⟩

end TripleStore
