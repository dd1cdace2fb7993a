import TripleStore.Proofs.Staging
import TripleStore.Proofs.Store.Publication

/-!
# Stores are published as a whole

The parts of a store are published one after another in a directory that is staged beside the
destination, and leave nothing else in it (`FileTree.TakesParts`). So building a store is all or
nothing as well. The main statement says it of every operation that publishes.
-/

namespace TripleStore

open FileTree

/-! ## Parts -/

namespace Contents

variable {c : Contents}

/-- What stands under a name. -/
def part (c : Contents) (name : String) : Contents := fun rest => c (name :: rest)

/-- Directories with nothing but their files, side by side in a directory. -/
def IsShelfOf (parts : List (String × List String)) : Contents → Prop :=
  IsJust ([] :: parts.map fun p => [p.1]) (parts.flatMap fun p => p.2.map fun file => [p.1, file])

theorem isShelfOf_of_parts {parts : List (String × List String)} (hdir : c [] = some .directory)
    (hparts : ∀ p ∈ parts, (c.part p.1).IsFolderOf p.2)
    (hrest : ∀ name rest, (∀ p ∈ parts, p.1 ≠ name) → c (name :: rest) = none) :
    c.IsShelfOf parts := by
  refine ⟨fun l hl => ?_, fun l hl => ?_, fun l hdirs hfiles => ?_⟩
  · rcases List.mem_cons.1 hl with rfl | hl
    · exact hdir
    · obtain ⟨p, hp, rfl⟩ := List.mem_map.1 hl
      exact (hparts p hp).directory [] (by simp)
  · obtain ⟨p, hp, hl⟩ := List.mem_flatMap.1 hl
    obtain ⟨file, hfile, rfl⟩ := List.mem_map.1 hl
    exact (hparts p hp).file [file] (List.mem_map.2 ⟨file, hfile, rfl⟩)
  · cases l with
    | nil => simp at hdirs
    | cons name rest =>
      by_cases hname : ∀ p ∈ parts, p.1 ≠ name
      · exact hrest name rest hname
      · push Not at hname
        obtain ⟨p, hp, rfl⟩ := hname
        refine (hparts p hp).nothing rest (fun hmem => hdirs ?_) fun hmem => hfiles ?_
        · rw [List.mem_singleton.1 hmem]
          exact List.mem_cons_of_mem _ (List.mem_map.2 ⟨p, hp, rfl⟩)
        · obtain ⟨file, hfile, rfl⟩ := List.mem_map.1 hmem
          exact List.mem_flatMap.2 ⟨p, hp, List.mem_map.2 ⟨file, hfile, rfl⟩⟩

end Contents

namespace FileTree

variable {α : Type} {before : Contents → Prop} {after : α → Contents → Prop}
  {t t' : FileTree} {work folder : Path} {name : String}

/-- Builds that work below one path may publish in a folder, one after another. -/
structure TakesParts (t : FileTree) (work folder : Path) : Prop where
  sound : t.Sound
  hasFolder : t.HasFolder folder
  out : ∀ name, folder.place ++ [name] ∉ folder.track
  apart : folder.place ∉ work.track

namespace TakesParts

/-- **There is room for a part under every name that is not temporary.** -/
theorem admits (h : t.TakesParts work folder) (hdots : name ≠ "..") (hdash : '-' ∉ name.toList) :
    t.Admits work (folder.child name) := by
  have hplace := Path.place_child folder hdots
  refine ⟨?_, fun hmem => ?_, fun l hl hpending => ?_⟩
  · rw [hplace, Path.trail_child]
    exact h.out name
  · rw [hplace] at hmem
    exact h.apart (Path.mem_track_of_above hmem (List.prefix_append _ _) folder.place_ne_nil)
  · rcases List.mem_append.1 (Path.track_child folder hdots ▸ hl) with hl | hl
    · rw [h.hasFolder l hl]
      simp
    · obtain ⟨last, hlast, hmem⟩ := hpending.dash_mem
      rw [List.mem_singleton.1 hl, List.getLast?_concat, Option.mem_some_iff] at hlast
      exact absurd (hlast ▸ hmem) hdash

end TakesParts

/-- A part with these files was put into a folder under a name, or nothing came of it. -/
structure PartPut (t : FileTree) (work folder : Path) (name : String) (files : List String)
    (r : Result α) (t' : FileTree) : Prop where
  takesParts : t'.TakesParts work folder
  madeOutside : t.MadeOutside folder.place work.track t'
  others : ∀ other ≠ name,
    (t'.contentsAt folder.place).part other = (t.contentsAt folder.place).part other
  files : (∃ a, r = .ok a) → ((t'.contentsAt folder.place).part name).IsFolderOf files

/-- **What is all or nothing at a name in a folder puts a part there**, and there is still room for
others. -/
theorem TakesParts.partPut {files : List String} {r : Result α}
    (h : t.TakesParts work folder) (hdots : name ≠ "..")
    (hrun : AllOrNothing before (fun _ => Contents.IsFolderOf files) t (folder.child name).place
      (work.track ++ (folder.child name).trail) (r, t')) :
    t.PartPut work folder name files r t' := by
  have hplace := Path.place_child folder hdots
  -- the directories on the way to the folder are there
  have hmade : t.MadeOutside (folder.place ++ [name]) work.track t' := by
    have hbeside := hrun.beside
    rw [hplace, Path.trail_child] at hbeside
    refine hbeside.mono fun q hq hnone => (List.mem_append.1 hq).resolve_right fun hq => ?_
    rw [h.hasFolder q hq] at hnone
    cases hnone
  have hapart : ∀ other rest, folder.place ++ other :: rest ∉ work.track := fun other rest hmem =>
    h.apart (Path.mem_track_of_above hmem (List.prefix_append _ _) folder.place_ne_nil)
  refine ⟨⟨hrun.sound, fun l hl => ?_, h.out, h.apart⟩, fun q hq => ?_, fun other hne => ?_, ?_⟩
  · exact hmade.lookup_of_some
      (fun habove => h.out name (Path.mem_track_of_above hl habove (by simp))) (h.hasFolder l hl)
  · exact hmade q fun habove => hq ((List.prefix_append _ _).trans habove)
  · funext rest
    refine hmade.lookup_of_notMem (fun habove => ?_) (hapart other rest)
    have := (List.prefix_append_right_inj _).1 habove
    simp only [List.cons_prefix_cons, List.nil_prefix, and_true] at this
    exact hne this.symm
  · rintro ⟨a, rfl⟩
    have hcontents : (t'.contentsAt folder.place).part name =
        t'.contentsAt (folder.child name).place := funext fun rest => by
      rw [Contents.part, contentsAt, contentsAt, Path.place_child_append folder hdots]
    rw [hcontents]
    exact (hrun.finished a rfl).2

end FileTree

/-! ## Stores -/

namespace Store

variable {t t' : FileTree} {settings : Settings} {source : TripleSource}
  {folder target : Destination} {fingerprint : String → UInt64}

/-- The directories of a store and the names of their files. -/
def parts : List (String × List String) :=
  [(termsFolder, CompositeBuilder.fileNames), (triplesFolder, IndexBuilder.fileNames)]

theorem reads_openAt (p : Path) : Disk.Reads (Composite.openAt p) :=
  .bind (Composite.reads_openDictionary _) fun _ =>
    .bind (Composite.reads_openDictionary _) fun _ => .ofResult _

/-- **The parts of a store go into a staged directory**, and nothing else. -/
theorem buildParts_of_takesParts {r : Result StoreStats}
    (h : t.TakesParts settings.workPath folder.path)
    (hempty : ∀ name rest, t.lookup (folder.path.place ++ name :: rest) = none)
    (hrun : (buildParts settings source folder fingerprint).apply t = (r, t')) :
    t'.TakesParts settings.workPath folder.path ∧
      t.MadeOutside folder.path.place settings.workPath.track t' ∧
      ((∃ a, r = .ok a) → (t'.contentsAt folder.path.place).IsShelfOf parts) := by
  have hterms : ∀ {r t'},
      (buildTerms settings source (folder.child termsFolder) fingerprint).apply t = (r, t') →
      t.PartPut settings.workPath folder.path termsFolder CompositeBuilder.fileNames r t' :=
    fun hrun => h.partPut (by decide) (hrun ▸ Composite.allOrNothing_build h.sound
      (h.admits (by decide) (by decide)))
  rw [buildParts] at hrun
  rcases Disk.bind_cases hrun with ⟨e, rfl, hfail⟩ | ⟨stats, _, hfirst, hrest⟩
  · have hput := hterms hfail
    exact ⟨hput.takesParts, hput.madeOutside, fun ⟨_, h⟩ => nomatch h⟩
  have hput := hterms hfirst
  rcases Disk.bind_cases hrest with ⟨e, rfl, hfail⟩ | ⟨terms, t₁, hopened, hnext⟩
  · obtain rfl := (reads_openAt _).eq hfail
    exact ⟨hput.takesParts, hput.madeOutside, fun ⟨_, h⟩ => nomatch h⟩
  obtain rfl := (reads_openAt _).eq hopened
  have htriples : ∀ {r t₂},
      (buildTriples settings terms source.third (folder.child triplesFolder)).apply t₁ = (r, t₂) →
      t₁.PartPut settings.workPath folder.path triplesFolder IndexBuilder.fileNames r t₂ :=
    fun hrun => hput.takesParts.partPut (by decide) (hrun ▸ allOrNothing_buildTriples
      hput.takesParts.sound (hput.takesParts.admits (by decide) (by decide)))
  have hmade : ∀ {r : Result Nat} {t₂},
      t₁.PartPut settings.workPath folder.path triplesFolder IndexBuilder.fileNames r t₂ →
      t.MadeOutside folder.path.place settings.workPath.track t₂ := fun hput' =>
    (hput.madeOutside.trans hput'.madeOutside).mono fun _ hq _ => by simpa using hq
  rcases Disk.bind_cases hnext with ⟨e, rfl, hfail⟩ | ⟨count, t₂, hsecond, hlast⟩
  · have hput' := htriples hfail
    exact ⟨hput'.takesParts, hmade hput', fun ⟨_, h⟩ => nomatch h⟩
  have hput' := htriples hsecond
  obtain ⟨-, rfl⟩ := Prod.mk.inj hlast
  refine ⟨hput'.takesParts, hmade hput', fun _ => Contents.isShelfOf_of_parts ?_ ?_ ?_⟩
  · simpa [contentsAt] using hput'.takesParts.hasFolder.lookup_place
  · rintro p hp
    rcases List.mem_pair.1 hp with rfl | rfl
    · exact (hput'.others termsFolder (by decide)).symm ▸ hput.files ⟨stats, rfl⟩
    · exact hput'.files ⟨count, rfl⟩
  · intro name rest hname
    have hterms : name ≠ termsFolder := fun h =>
      hname (termsFolder, CompositeBuilder.fileNames) (by simp [parts]) h.symm
    have htriples : name ≠ triplesFolder := fun h =>
      hname (triplesFolder, IndexBuilder.fileNames) (by simp [parts]) h.symm
    have hother := (hput'.others name htriples).trans (hput.others name hterms)
    exact (congrFun hother rest).trans (hempty name rest)

/-- **Building a store is all or nothing.** -/
theorem allOrNothing_build (hs : t.Sound) (hout : target.path.place ∉ target.path.trail)
    (hapart : target.path.place ∉ settings.workPath.track)
    (hguess : ∀ l ∈ settings.workPath.track, t.IsPending l → t.lookup l ≠ none) :
    AllOrNothing Contents.IsVacant (fun _ => Contents.IsShelfOf parts) t target.path.place
      (target.path.trail ++ settings.workPath.track)
      ((build settings source target fingerprint).apply t) := by
  refine Disk.allOrNothing_staged hs hout
    (fun q hq habove => hapart (Path.mem_track_of_above hq habove target.path.place_ne_nil))
    ⟨termsFolder, by simp [parts]⟩ fun name t₁ r₂ t₂ hst => ?_
  have hplace := Path.place_child target.path.parent hst.dots
  have ho := hst.opened
  have htakes : t₁.TakesParts settings.workPath (target.path.parent.child name) := by
    refine ⟨ho.sound, (hasFolder_child hst.dots).2 ⟨ho.hasFolder, ho.lookup_place⟩,
      fun other hmem => ?_, fun hmem => ?_⟩
    · rw [Path.track_child _ hst.dots, hplace] at hmem
      rcases List.mem_append.1 hmem with hmem | hmem
      · exact ho.not_above_of_mem hmem (List.prefix_append _ _)
      · simp at hmem
    · rw [hplace] at hmem
      exact hguess _ hmem ho.pending ho.absent
  have hempty : ∀ other rest,
      t₁.lookup ((target.path.parent.child name).place ++ other :: rest) = none := by
    intro other rest
    rw [hplace, ho.lookup_below hs (List.prefix_append _ _) (by simp)]
  obtain ⟨htakes', hmade, hshelf⟩ := buildParts_of_takesParts htakes hempty hst.run
  rw [hplace] at hmade hshelf
  exact ⟨htakes'.sound, hmade, hplace ▸ htakes'.hasFolder.lookup_place, hshelf⟩

end Store

/-! ## Every publication -/

variable {t : FileTree} {target : Destination}

/-- **Publication is all or nothing.** Writing a dictionary, a composite dictionary or indices, or
building a store, either fails and leaves what stands at its destination and below as it was, or
finds no directory there (a dictionary) or nothing but an empty one (all others) and leaves exactly
the finished files. Beside the destination nothing is left behind but directories on the way to it
and, by the building of a store, to the working directory: the private directory of a builder is
gone. For this, no path may lead through the destination, and that of the working directory may not
guess the name of a directory that is still to be made. -/
theorem publishes_all_or_nothing (hs : t.Sound) (hout : target.path.place ∉ target.path.trail) :
    (∀ w : Workspace, w.InUse t target.path →
      (∀ b : DictionaryBuilder, b.WorksIn w →
        AllOrNothing Contents.IsFree Contents.IsDictionary (t.prune w.path.place)
          target.path.place target.path.trail ((b.write target).apply t)) ∧
      (∀ b : CompositeBuilder, b.WorksIn w →
        AllOrNothing Contents.IsVacant (fun _ => Contents.IsFolderOf ["strings", "shared"])
          (t.prune w.path.place) target.path.place target.path.trail
          ((b.write target).apply t)) ∧
      ∀ b : IndexBuilder, b.WorksIn w →
        AllOrNothing Contents.IsVacant (fun _ => Contents.IsFolderOf ["spo", "pso", "ops"])
          (t.prune w.path.place) target.path.place target.path.trail
          ((b.write target).apply t)) ∧
    ∀ (settings : Settings) (source : TripleSource) (fingerprint : String → UInt64),
      target.path.place ∉ settings.workPath.track →
      (∀ l ∈ settings.workPath.track, t.IsPending l → t.lookup l ≠ none) →
      AllOrNothing Contents.IsVacant
        (fun _ => Contents.IsShelfOf
          [("dict", ["strings", "shared"]), ("triples", ["spo", "pso", "ops"])])
        t target.path.place (target.path.trail ++ settings.workPath.track)
        ((Store.build settings source target fingerprint).apply t) := by
  refine ⟨fun w hw => ⟨fun b hb => ?_, fun b hb => ?_, fun b hb => ?_⟩,
    fun settings source fingerprint hapart hguess => ?_⟩
  · exact DictionaryBuilder.allOrNothing_write hs hw hb hout
  · exact CompositeBuilder.allOrNothing_write hs hw hb hout
  · exact IndexBuilder.allOrNothing_write hs hw hb hout
  · exact Store.allOrNothing_build hs hout hapart hguess

/-! ### An empty directory as destination -/

/-- A tree with an empty directory and the private directory of a builder. -/
def busyTree : FileTree :=
  ((FileTree.empty.put [".", "work"] .directory).put [".", "work", "triples-0"] .directory).put
    [".", "old"] .directory

/-- The private directory in it. -/
def busyWorkspace : Workspace := ⟨⟨false, ["work", "triples-0"], .name⟩⟩

/-- The empty directory in it. -/
def oldFolder : Destination := ⟨⟨false, ["old"], .name⟩, "old"⟩

/-- The same directory, by a path that leads through it. -/
def oldThroughItself : Destination := ⟨⟨false, ["old", "..", "old"], .name⟩, "old/../old"⟩

/-- A build of no triples. -/
def idleBuilder : IndexBuilder :=
  ⟨busyWorkspace, 1, Sorter.create busyWorkspace.path "spo" 1,
    Sorter.create busyWorkspace.path "pso" 1, Sorter.create busyWorkspace.path "ops" 1, 0⟩

/-- A build of a dictionary of two strings. -/
def stringsBuilder : DictionaryBuilder :=
  ⟨busyWorkspace, ((Sorter.create busyWorkspace.path "terms" 1024).take ⟨#[98]⟩).take ⟨#[97]⟩⟩

/-- A second pass that has visited the one term that the first pass saw. -/
def termBuilder : CompositeBuilder where
  splitter := ⟨.both, 4⟩
  fingerprint := mixedFingerprint
  workspace := busyWorkspace
  shared := ⟨.empty, ⟨⟨0, 0, 0, 0, 0, 0, 0, 0, 0⟩, []⟩, ⟨0, 0, .two, none⟩, default⟩
  entries := (Sorter.create busyWorkspace.path "strings" 1024).take "<a:b>".toUTF8
  seen := Std.TreeSet.ofList [mixedFingerprint "<a:b>"]
  expected := 1
  visits := 1

/-- A build of indices of one triple. -/
def tripleBuilder : IndexBuilder :=
  ⟨busyWorkspace, 1024, (Sorter.create busyWorkspace.path "spo" 1024).take ⟨1, 2, 3⟩,
    (Sorter.create busyWorkspace.path "pso" 1024).take ⟨2, 1, 3⟩,
    (Sorter.create busyWorkspace.path "ops" 1024).take ⟨3, 2, 1⟩, 1⟩

/-- A source that comes up with a triple at its third reading. -/
def lateSource : TripleSource := ⟨[], [], [⟨"<a:s>", "<a:p>", "<a:o>"⟩]⟩

theorem sound_busyTree : busyTree.Sound := by
  have hwork : (FileTree.empty.put (["."] ++ ["work"]) .directory).Sound :=
    sound_empty.put (by simp) rfl (by decide +kernel)
  have hprivate : ((FileTree.empty.put [".", "work"] .directory).put
      ([".", "work"] ++ ["triples-0"]) .directory).Sound :=
    hwork.put (by simp) (by decide +kernel) (by decide +kernel)
  have hold : (((FileTree.empty.put [".", "work"] .directory).put [".", "work", "triples-0"]
      .directory).put (["."] ++ ["old"]) .directory).Sound :=
    hprivate.put (by simp) rfl (by decide +kernel)
  exact hold

theorem inUse_busyWorkspace {path : Path} (haside : busyWorkspace.path.place ∉ path.track)
    (hapart : ¬ path.place <+: [".", "work"]) : busyWorkspace.InUse busyTree path := by
  have hleads : ∀ l ∈ busyWorkspace.path.trail, busyTree.lookup l = some .directory := by
    decide +kernel
  exact ⟨⟨by decide, hleads⟩, by decide +kernel, by decide, haside, hapart⟩

theorem worksIn_idleBuilder : idleBuilder.WorksIn busyWorkspace :=
  ⟨rfl, fun order => by cases order <;> rfl⟩

theorem worksIn_tripleBuilder : tripleBuilder.WorksIn busyWorkspace :=
  ⟨rfl, fun order => by cases order <;> rfl⟩

/-- At the empty directory every publication is all or nothing. -/
theorem publishes_all_or_nothing_at_old :
    (busyTree.Sound ∧ oldFolder.path.place ∉ oldFolder.path.trail) ∧
    busyWorkspace.InUse busyTree oldFolder.path ∧
    (stringsBuilder.WorksIn busyWorkspace ∧
      AllOrNothing Contents.IsFree Contents.IsDictionary (busyTree.prune busyWorkspace.path.place)
        oldFolder.path.place oldFolder.path.trail
        ((stringsBuilder.write oldFolder).apply busyTree)) ∧
    (termBuilder.WorksIn busyWorkspace ∧
      AllOrNothing Contents.IsVacant (fun _ => Contents.IsFolderOf ["strings", "shared"])
        (busyTree.prune busyWorkspace.path.place) oldFolder.path.place oldFolder.path.trail
        ((termBuilder.write oldFolder).apply busyTree)) ∧
    (tripleBuilder.WorksIn busyWorkspace ∧
      AllOrNothing Contents.IsVacant (fun _ => Contents.IsFolderOf ["spo", "pso", "ops"])
        (busyTree.prune busyWorkspace.path.place) oldFolder.path.place oldFolder.path.trail
        ((tripleBuilder.write oldFolder).apply busyTree)) ∧
    oldFolder.path.place ∉ Settings.default.workPath.track ∧
    (∀ l ∈ Settings.default.workPath.track, busyTree.IsPending l → busyTree.lookup l ≠ none) ∧
    AllOrNothing Contents.IsVacant
      (fun _ => Contents.IsShelfOf
        [("dict", ["strings", "shared"]), ("triples", ["spo", "pso", "ops"])])
      busyTree oldFolder.path.place (oldFolder.path.trail ++ Settings.default.workPath.track)
      ((Store.build Settings.default lateSource oldFolder).apply busyTree) := by
  have hout : oldFolder.path.place ∉ oldFolder.path.trail := by decide
  have hw : busyWorkspace.InUse busyTree oldFolder.path :=
    inUse_busyWorkspace (by decide) (by decide)
  have hguess : ∀ l ∈ Settings.default.workPath.track,
      busyTree.IsPending l → busyTree.lookup l ≠ none := by
    intro l hl hpending
    have hshort : ∀ l ∈ Settings.default.workPath.track, ∀ name ∈ l.getLast?, name.length < 6 := by
      decide
    obtain ⟨name, hname, hlong⟩ := hpending.six_le_length
    exact absurd hlong (Nat.not_le.2 (hshort l hl name hname))
  obtain ⟨hbuilders, hstore⟩ := publishes_all_or_nothing sound_busyTree hout
  obtain ⟨hdictionary, hcomposite, hindices⟩ := hbuilders busyWorkspace hw
  exact ⟨⟨sound_busyTree, hout⟩, hw, ⟨⟨rfl, rfl⟩, hdictionary stringsBuilder ⟨rfl, rfl⟩⟩,
    ⟨⟨rfl, rfl⟩, hcomposite termBuilder ⟨rfl, rfl⟩⟩,
    ⟨worksIn_tripleBuilder, hindices tripleBuilder worksIn_tripleBuilder⟩, by decide, hguess,
    hstore Settings.default lateSource mixedFingerprint (by decide) hguess⟩

/-- **An empty destination on the way to what is published is lost**: it is removed to make room,
and after that the way leads nowhere. -/
theorem Disk.publish_on_own_way {source : Path} (hnames : t.Names target.path)
    (hdir : t.lookup target.path.place = some .directory)
    (hempty : ∀ name, t.lookup (target.path.place ++ [name]) = none)
    (hway : target.path.place ∈ source.track) :
    ∃ e, (publish source target).apply t = (.error e, t.drop target.path.place) := by
  have hroot := Path.isRoot_place hnames.proper
  have hremove := hnames.removeDirectory hdir hempty
  rw [publish, apply_bind_of_ok (apply_get t), if_pos ((hnames.isVacant hdir).2 hempty),
    apply_bind_of_ok (apply_update hremove)]
  cases hfolder : (t.drop target.path.place).folder source with
  | error fault =>
    have hrequire : (requireFolder source).apply (t.drop target.path.place) =
        (.error (.io fault), t.drop target.path.place) :=
      apply_look_of_error (by rw [hfolder]; rfl)
    exact ⟨.io fault, by rw [apply_bind, hrequire]⟩
  | ok l =>
    have hplace := (folder_eq_ok.1 hfolder).1 _ hway
    rw [lookup_drop hroot, if_pos rfl] at hplace
    cases hplace

/-- The empty directory is lost if the path to it leads through it: it is removed to make room, and
after that the path leads nowhere. The staged directory is left behind. -/
theorem loses_destination_on_own_way :
    (busyWorkspace.InUse busyTree oldThroughItself.path ∧ idleBuilder.WorksIn busyWorkspace) ∧
    oldThroughItself.path.place = [".", "old"] ∧ busyTree.lookup [".", "old"] = some .directory ∧
    busyTree.lookup [".", ".staging-0"] = none ∧
    ∃ e t', (idleBuilder.write oldThroughItself).apply busyTree = (.error e, t') ∧
      t'.lookup [".", "old"] = none ∧ t'.lookup [".", ".staging-0"] = some .directory := by
  have hfail :
      ((idleBuilder.write oldThroughItself).apply busyTree).1 = .error (.io .notFound) := by
    decide +kernel
  exact ⟨⟨inUse_busyWorkspace (by decide) (by decide), worksIn_idleBuilder⟩, by decide,
    by decide +kernel, by decide +kernel, _, _, Prod.ext hfail rfl, by decide +kernel,
    by decide +kernel⟩

end TripleStore
