import TripleStore.Dictionary.Builder
import TripleStore.Proofs.Dictionary.File
import TripleStore.Proofs.Workspace

/-!
# Building a dictionary from strings in any order

A build of a dictionary holds the strings that it was given (`DictionaryBuilder.Held`). Whatever
their order, their number and the sort budget, the file that it writes is that of the distinct
strings in ascending order (`file_of_build`).
-/

namespace TripleStore

namespace FileTree

/-- Nothing is in the way of a build that works below one path and writes a file at another: no file
is where a directory is needed, no directory is or will be where the file goes, and names that are
still to be given out differ from what the path of the file names and is missing. -/
structure ReadyForFile (t : FileTree) (work target : Path) : Prop where
  sound : t.Sound
  passable : t.Passable work
  proper : target.isProper = true
  ending : target.ending = .name
  noFile : ∀ l ∈ target.trail, ∀ content, t.lookup l ≠ some (.file content)
  out : target.place ∉ target.trail
  free : t.lookup target.place ≠ some .directory
  apart : target.place ∉ work.track
  unguessed : ∀ l ∈ target.track, t.IsPending l → t.lookup l ≠ none

variable {t t₁ t₂ : FileTree} {work target : Path} {name : String}

/-- A tree of nothing but its roots is ready for builds of files whose paths have short names. -/
theorem readyForFile_empty (hdot : work.ending ≠ .dot) (hproper : target.isProper = true)
    (hend : target.ending = .name) (hout : target.place ∉ target.trail)
    (hapart : target.place ∉ work.track)
    (hshort : ∀ l ∈ target.track, ∀ name ∈ l.getLast?, name.length < 6) :
    empty.ReadyForFile work target where
  sound := sound_empty
  passable := ⟨fun l _ content => by rw [lookup_empty]; split <;> simp, fun h => absurd h hdot⟩
  proper := hproper
  ending := hend
  noFile l _ content := by rw [lookup_empty]; split <;> simp
  out := hout
  free := by simp [lookup_empty, Path.isRoot_place hproper]
  apart := hapart
  unguessed l hl hpending := by
    obtain ⟨name, hname, hlong⟩ := hpending.six_le_length
    have := hshort l hl name hname
    omega

namespace ReadyForFile

/-- A private directory that was made is not on the way to the file. -/
theorem not_above (h : t.ReadyForFile work target) (ho : t.Opened work name t₁) {l : Place}
    (hl : l ∈ target.track) : ¬ work.place ++ [name] <+: l := fun habove =>
  h.unguessed _ (Path.mem_track_of_above hl habove (by simp)) ho.pending ho.absent

variable (h : t.ReadyForFile work target) (ho : t.Opened work name t₁)
  (hi : t₁.Inside (work.place ++ [name]) t₂)

include h ho hi

/-- Work in a private directory puts no file in the way. -/
theorem passable_parent : t₂.Passable target.parent := by
  refine FileTree.passable_parent fun l hl content => ?_
  rw [ho.lookup_of_inside hi (h.not_above ho (Path.mem_track_of_mem_trail hl))]
  split
  · simp
  · exact h.noFile l hl content

/-- Work in a private directory makes no directory where the file goes. -/
theorem free_of_inside : t₂.lookup target.place ≠ some .directory := by
  rw [ho.lookup_of_inside hi (h.not_above ho target.place_mem_track), if_neg h.apart]
  exact h.free

end ReadyForFile

end FileTree

namespace DictionaryBuilder

variable {folder work : Path} {t t₁ t₂ : FileTree} {b : DictionaryBuilder}
  {strings distinct : List ByteArray} {settings : Settings} {name : String} {target : Destination}

/-! ## Taking in strings -/

/-- A build holds strings. -/
structure Held (folder : Path) (t : FileTree) (b : DictionaryBuilder) (strings : List ByteArray) :
    Prop where
  workspace : b.workspace = ⟨folder⟩
  strings : Sorter.Holds folder "terms" t b.strings strings

/-- **A build takes in every string.** -/
theorem add_of_held (hs : t.Sound) (h : b.Held folder t strings) {string : ByteArray}
    (hsize : string.size < limit64) :
    ∃ b' t', (add string).apply b t = (.ok (), b', t') ∧
      b'.Held folder t' (strings ++ [string]) ∧ t.Inside folder.place t' := by
  obtain ⟨s, t', hpush, hholds, hoff⟩ := Sorter.push_of_holds hs h.strings (fits_bytes hsize)
  refine ⟨{ b with strings := s }, t', ?_, ⟨h.workspace, hholds⟩,
    hoff.inside h.strings.hasFolder.lookup_place⟩
  rw [add, Build.apply_part, hpush]

/-- **A build holds the strings that it was given one after another.** -/
theorem forM_add_of_held (hs : t.Sound) (h : b.Held folder t [])
    (hsize : ∀ s ∈ strings, s.size < limit64) :
    ∃ b' t', (strings.forM add).apply b t = (.ok (), b', t') ∧ b'.Held folder t' strings ∧
      t.Inside folder.place t' := by
  have hf := h.strings.hasFolder.lookup_place
  refine Build.forM_of_step (P := fun before b' t' =>
    DictionaryBuilder.Held folder t' b' before ∧ t.Inside folder.place t')
    (fun before string after b₁ t₁ hstrings h₁ => ?_) ⟨h, FileTree.Inside.refl hs hf⟩
  obtain ⟨hheld, hinside⟩ := h₁
  obtain ⟨b₂, t₂, hadd, hheld₂, hinside₂⟩ :=
    add_of_held hinside.sound hheld (hsize string (by simp [hstrings]))
  exact ⟨b₂, t₂, hadd, hheld₂, hinside.trans hinside₂⟩

/-- **A build starts without strings.** -/
theorem create_held (hs : t.Sound) (hp : t.Passable settings.workPath)
    (hc : settings.compressRuns = false) :
    ∃ name b t', (create settings).apply t = (.ok b, t') ∧ name ≠ ".." ∧
      t.Opened settings.workPath name t' ∧ b.Held (settings.workPath.child name) t' [] := by
  have hstem : "dictionary-" ∈ temporaryStems := by decide
  obtain ⟨name, t', hcreate, hdots, ho⟩ := Workspace.create_of_passable hs hp hc hstem
  refine ⟨name, ⟨⟨settings.workPath.child name⟩,
    Sorter.create (settings.workPath.child name) "terms" settings.sortBufferBytes⟩, t', ?_, hdots,
    ho, ⟨rfl, Sorter.holds_create_of_opened hs hdots ho "terms" settings.sortBufferBytes⟩⟩
  rw [create, Disk.apply_bind_of_ok hcreate]
  rfl

/-! ## Writing the file -/

/-- The distinct strings of a build are those that the sorter answers without repetitions. -/
theorem eq_distinct (hlt : StrictlyAscending distinct) (hmem : ∀ s, s ∈ strings ↔ s ∈ distinct) :
    (runLengths (Sorter.sorted strings)).map (·.1) = distinct :=
  eq_of_mem_iff_of_strictlyAscending (strictlyAscending_runLengths (Sorter.ascending_sorted _)) hlt
    fun s => by rw [mem_map_fst_runLengths, Sorter.mem_sorted, hmem]

/-- **Writing leaves the file of the distinct strings at the destination.** -/
theorem write_of_held (hr : t.ReadyForFile work target.path) (hname : name ≠ "..")
    (ho : t.Opened work name t₁)
    (hi : t₁.Inside (work.place ++ [name]) t₂) (h : b.Held (work.child name) t₂ strings)
    (hlt : StrictlyAscending distinct) (hmem : ∀ s, s ∈ strings ↔ s ∈ distinct) :
    ∃ file t', Dictionary.fileOf distinct 0 0 = .ok (file, distinct.length) ∧
      (b.write target).apply t₂ = (.ok distinct.length, t') ∧
      t'.load target.path = .ok file := by
  have hplace := Path.place_child work hname
  have htrack := Path.track_parent (Path.names_ne_nil_of_isProper hr.proper)
  have hwork := h.strings.hasFolder
  have hnot : ∀ l ∈ target.path.trail, ¬ work.place ++ [name] <+: l := fun l hl =>
    hr.not_above ho (Path.mem_track_of_mem_trail hl)
  have hapart := hr.not_above ho target.path.place_mem_track
  have hrunApart : ∀ i, target.path.place ≠ (work.child name).place ++ [Sorter.runName "terms" i] :=
    fun i heq => hapart (heq ▸ hplace ▸ List.prefix_append _ _)
  -- the directories above the destination
  obtain ⟨t₃, hmake, hs₃, hpaved⟩ :=
    Disk.makeDirectories_of_passable hi.sound (hr.passable_parent ho hi)
  rw [FileTree.Paved, htrack] at hpaved
  have hkeep₃ : ∀ q, t₂.lookup q = some .directory → t₃.lookup q = some .directory := fun q hq => by
    rw [hpaved, hq, ite_self]
  have hholds₃ := h.strings.of_lookup (hwork.mono hkeep₃) fun i => by
    rw [hpaved, if_neg fun hmem => hnot _ hmem (hplace ▸ List.prefix_append _ _)]
  -- the strings in order
  obtain ⟨t₄, hdrain, hoff⟩ := Sorter.drain_of_holds hs₃ hholds₃
  have hkeep₄ := fun q => hoff.lookup_directory hholds₃.free (q := q)
  have hnames : t₄.Names target.path := ⟨hr.proper, fun l hl => hkeep₄ l (by simp [hpaved, hl])⟩
  have hfree : t₄.lookup target.path.place ≠ some .directory := by
    rw [hoff.outside _ hrunApart, hpaved, if_neg hr.out]
    exact hr.free_of_inside ho hi
  -- the file of the distinct ones
  obtain ⟨file, hfile, -, -⟩ := Dictionary.holds_of_fileOf hlt 0 0
  obtain ⟨t₅, hwrite, hplaced⟩ :=
    Dictionary.writeFile_of_fileOf hfile ⟨hoff.sound, hnames, hr.ending, hfree⟩
  have hprivate := (FileTree.hasFolder_child hname).1
    (hplaced.hasFolder (hholds₃.hasFolder.mono hkeep₄))
  have hbody : (do
      Disk.makeParents target.path
      b.workspace.check
      let strings ← b.strings.drain
      Dictionary.writeFile ((runLengths strings).map (·.1)) 0 0 target.path : Disk Nat).apply t₂ =
        (.ok distinct.length, t₅) := by
    have hcheck : b.workspace.check.apply t₃ = (.ok (), t₃) := by
      rw [h.workspace]
      exact Disk.requireFolder_of_hasFolder hholds₃.hasFolder
    rw [Disk.makeParents, Disk.apply_bind_of_ok hmake, Disk.apply_bind_of_ok hcheck,
      Disk.apply_bind_of_ok hdrain, eq_distinct hlt hmem, hwrite]
  obtain ⟨t', hrun, hlookup⟩ :=
    Workspace.consume_of_ok hname hbody hprivate.1 hprivate.2 ho.out
  refine ⟨file, t', hfile, ?_, ?_⟩
  · rw [write, h.workspace]
    rw [h.workspace] at hrun
    exact hrun
  · have hnames' : t'.Names target.path := ⟨hr.proper, fun l hl => by
      rw [hlookup, if_neg (hnot l hl)]
      exact (hplaced.names hnames).leads l hl⟩
    refine hnames'.load hr.ending ?_
    rw [hlookup, if_neg hapart, hplaced.lookup_self]

/-! ## The whole build -/

/-- Builds the dictionary of strings. -/
def build (settings : Settings) (strings : List ByteArray) (target : Destination) : Disk Nat := do
  let b ← create settings
  let b ← Disk.build b (strings.forM add)
  b.write target

/-- **In a tree that is ready a build leaves the file of the distinct strings**, and answers their
number. -/
theorem file_of_build (hr : t.ReadyForFile settings.workPath target.path)
    (hc : settings.compressRuns = false) (hsize : ∀ s ∈ strings, s.size < limit64)
    (hlt : StrictlyAscending distinct) (hmem : ∀ s, s ∈ strings ↔ s ∈ distinct) :
    ∃ file t', Dictionary.fileOf distinct 0 0 = .ok (file, distinct.length) ∧
      (build settings strings target).apply t = (.ok distinct.length, t') ∧
      t'.load target.path = .ok file := by
  obtain ⟨name, b, t₁, hcreate, hdots, ho, hheld⟩ := create_held hr.sound hr.passable hc
  obtain ⟨b', t₂, hadd, hheld', hinside⟩ := forM_add_of_held ho.sound hheld hsize
  rw [Path.place_child _ hdots] at hinside
  obtain ⟨file, t', hfile, hwrite, hload⟩ :=
    write_of_held hr hdots ho hinside hheld' hlt hmem
  refine ⟨file, t', hfile, ?_, hload⟩
  rw [build, Disk.apply_bind_of_ok hcreate, Disk.apply_bind_of_ok (Disk.apply_build hadd), hwrite]

end DictionaryBuilder

end TripleStore
