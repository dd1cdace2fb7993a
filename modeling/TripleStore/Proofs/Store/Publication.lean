import TripleStore.Proofs.Builders

/-!
# Publication is all or nothing

The builders that publish are all or nothing at their destinations: writing a dictionary, a
composite dictionary or indices, seen without the private directory of the builder, leaves nothing
else behind but directories on the way. So are the whole builds of the two parts of a store, from
the making of the private directory on (`Composite.allOrNothing_build`,
`Store.allOrNothing_buildTriples`).
-/

namespace TripleStore

open FileTree

variable {t : FileTree} {w : Workspace} {target : Destination}

/-! ## Dictionaries -/

/-- Just the file of a dictionary of so many strings. -/
def Contents.IsDictionary (count : Nat) (c : Contents) : Prop :=
  ∃ strings file, Dictionary.fileOf strings 0 0 = .ok (file, count) ∧ c.IsFile file

namespace DictionaryBuilder

variable {b : DictionaryBuilder}

/-- The file of the strings of a build, and their number. -/
def makeFile (b : DictionaryBuilder) : Disk (ByteArray × Nat) := do
  b.workspace.check
  let strings ← b.strings.drain
  Disk.ofResult (Dictionary.fileOf ((runLengths strings).map (·.1)) 0 0)

theorem write_eq (b : DictionaryBuilder) (target : Destination) :
    b.write target = b.workspace.consume (do
      Disk.makeParents target.path
      let made ← b.makeFile
      Disk.replaceFile target.path (pure made.1)
      return made.2) := by
  simp only [write, makeFile, Dictionary.writeFile_eq, bind_assoc]

theorem writes_makeFile (hb : b.WorksIn w) : Disk.Writes w.path.place []
    (fun p => ∃ strings, Dictionary.fileOf strings 0 0 = .ok p) b.makeFile := by
  rw [makeFile, hb.workspace]
  exact .bind (.reads (.requireFolder w.path)) fun _ _ =>
    .bind (Sorter.writes_drain hb.strings) fun strings _ => .ofResult fun p hp => ⟨_, hp⟩

/-- **Writing a dictionary is all or nothing.** -/
theorem allOrNothing_write (hs : t.Sound) (hw : w.InUse t target.path) (hb : b.WorksIn w)
    (hout : target.path.place ∉ target.path.trail) :
    AllOrNothing Contents.IsFree Contents.IsDictionary (t.prune w.path.place) target.path.place
      target.path.trail ((b.write target).apply t) := by
  rw [write_eq, hb.workspace]
  refine Workspace.allOrNothing_consume hw ?_
  generalize hrun : Disk.apply _ t = run
  obtain ⟨r, t'⟩ := run
  rcases Disk.bind_cases hrun with ⟨e, rfl, hfail⟩ | ⟨_, t₁, hparents, hrest⟩
  · have hmade := Disk.made_makeParents hs hfail
    exact Workspace.confined_of_error hw hout ⟨e, rfl⟩ hmade
      (.refl hmade.sound (hmade.lookup_of_some hw.lookup_place))
  have hmade := Disk.made_makeParents hs hparents
  have hf := hmade.lookup_of_some hw.lookup_place
  rcases Disk.bind_cases hrest with ⟨e, rfl, hfail⟩ | ⟨⟨file, count⟩, t₂, hfile, hlast⟩
  · exact Workspace.confined_of_error hw hout ⟨e, rfl⟩ hmade
      ((writes_makeFile hb).wrote hmade.sound hf hfail)
  obtain ⟨hwrote, strings, hstrings⟩ :=
    (writes_makeFile hb t₁ _ t₂ hmade.sound hf hfile).2 _ rfl
  have hreplaced := fun {r t₃}
      (h : (Disk.replaceFile target.path (pure file)).apply t₂ = (r, t₃)) =>
    Disk.replaceFile_cases (Q := (· = file)) (.pure rfl) hwrote.sound hwrote.lookup_place
      w.path.place_ne_nil hw.notMem_parent h
  rcases Disk.bind_cases hlast with ⟨e, rfl, hfail⟩ | ⟨_, t₃, hreplace, hcount⟩
  · rcases hreplaced hfail with ⟨-, hwrote'⟩ | ⟨h, -⟩
    · exact Workspace.confined_of_error hw hout ⟨e, rfl⟩ hmade (hwrote.trans hwrote')
    · cases h
  obtain ⟨rfl, rfl⟩ : .ok count = r ∧ t₃ = t' := by simpa using hcount
  rcases hreplaced hreplace with ⟨⟨_, h⟩, -⟩ | ⟨-, -, hold, hwrote', _, rfl, hcontent⟩
  · cases h
  have hold₁ : t₁.lookup target.path.place ≠ some .directory := fun hdir => hold <| by
    rw [hwrote.outside _ (hw.not_above_of_mem target.path.place_mem_track) (by simp), hdir]
  exact Workspace.confined_of_file hs hw hmade hold₁ (hwrote.trans hwrote') hcontent
    fun c hc => ⟨strings, _, hstrings, hc⟩

end DictionaryBuilder

/-! ## Indices -/

namespace IndexBuilder

variable {b : IndexBuilder}

/-- The names of the files of the indices. -/
def fileNames : List String := RoleOrder.all.map (·.fileName)

theorem fills (hb : b.WorksIn w) :
    w.Fills target (fun folder => RoleOrder.all.forM (b.writeOrder folder.path)) fileNames := by
  intro name _ hout
  have hall : Disk.Writes w.path.place
      (RoleOrder.all.flatMap fun order => [_ ++ [order.fileName]]) (fun _ => True) _ :=
    .forM fun order _ => writes_writeOrder hb hout order
  exact hall

/-- **Writing indices is all or nothing.** -/
theorem allOrNothing_write (hs : t.Sound) (hw : w.InUse t target.path) (hb : b.WorksIn w)
    (hout : target.path.place ∉ target.path.trail) :
    AllOrNothing Contents.IsVacant (fun _ => Contents.IsFolderOf fileNames)
      (t.prune w.path.place) target.path.place target.path.trail ((b.write target).apply t) := by
  rw [write, hb.workspace]
  exact Workspace.allOrNothing_consume hw ((Workspace.confined_staged hs hw hout (by decide)
    (fills hb)).bind_pure fun _ _ h => h)

end IndexBuilder

/-- **Building the indices of a store is all or nothing.** -/
theorem Store.allOrNothing_buildTriples {settings : Settings} {terms : Composite}
    {triples : List TermTriple} (hs : t.Sound) (ha : t.Admits settings.workPath target.path) :
    AllOrNothing Contents.IsVacant
      (fun _ => Contents.IsFolderOf IndexBuilder.fileNames) t target.path.place
      (settings.workPath.track ++ target.path.trail)
      ((buildTriples settings terms triples target).apply t) := by
  simp only [buildTriples, IndexBuilder.create, bind_assoc, pure_bind]
  refine Workspace.allOrNothing_create_bind hs (by decide) ha.not_above fun name u hu => ?_
  have hadds : Build.Keeps (settings.workPath.child name).place
      (IndexBuilder.WorksIn ⟨settings.workPath.child name⟩) (triples.forM (addResolved terms)) :=
    .forM fun triple _ => .bind (.ofResult _) fun ids => IndexBuilder.keeps_add _ ids
  refine Workspace.allOrNothing_guarding_bind hs hu (hadds.build ⟨rfl, fun order => ?_⟩)
    ha.not_above fun b t' hb ht' => ?_
  · cases order <;> rfl
  · exact ht'.allOrNothing hs ha.not_above
      (IndexBuilder.allOrNothing_write ht'.sound (ht'.inUse ha) hb ha.out)

/-! ## Composite dictionaries -/

namespace CompositeBuilder

variable {b : CompositeBuilder}

/-- The names of the files of a composite dictionary. -/
def fileNames : List String := [Composite.entriesFile, Composite.sharedFile]

/-- **Writing a composite dictionary is all or nothing.** -/
theorem allOrNothing_write (hs : t.Sound) (hw : w.InUse t target.path) (hb : b.WorksIn w)
    (hout : target.path.place ∉ target.path.trail) :
    AllOrNothing Contents.IsVacant (fun _ => Contents.IsFolderOf fileNames)
      (t.prune w.path.place) target.path.place target.path.trail ((b.write target).apply t) := by
  rw [write, hb.workspace]
  refine Workspace.allOrNothing_consume hw ?_
  rw [Disk.apply_bind, Disk.apply_ofResult]
  cases require (b.visits = b.expected) (.invalid .visitCount) with
  | error e =>
    exact .of_error hs hw.lookup_place hw.isRoot_place w.path.place_ne_nil
      (fun q => Disk.not_above_of_mem_trail hout) e
  | ok u =>
    exact Workspace.confined_staged hs hw hout (by decide) fun _ _ h => writes_writeFiles hb h

end CompositeBuilder

/-- **Building a composite dictionary is all or nothing.** -/
theorem Composite.allOrNothing_build {settings : Settings} {first second : List String}
    {fingerprint : String → UInt64} (hs : t.Sound)
    (ha : t.Admits settings.workPath target.path) :
    AllOrNothing Contents.IsVacant
      (fun _ => Contents.IsFolderOf CompositeBuilder.fileNames) t target.path.place
      (settings.workPath.track ++ target.path.trail)
      ((build settings first second target fingerprint).apply t) := by
  simp only [build, firstPass, VocabularyBuilder.create, bind_assoc, pure_bind]
  refine Workspace.allOrNothing_create_bind hs (by decide) ha.not_above fun name u hu => ?_
  have hfirst : Build.Keeps (settings.workPath.child name).place
      (VocabularyBuilder.WorksIn ⟨settings.workPath.child name⟩)
      (first.forM VocabularyBuilder.visit) :=
    .forM fun term _ => VocabularyBuilder.keeps_visit _ term
  refine Workspace.allOrNothing_guarding_bind hs hu (hfirst.build ⟨rfl, rfl⟩) ha.not_above
    fun v u₁ hv hu₁ => ?_
  obtain ⟨body, hfreeze, hwrites⟩ := VocabularyBuilder.writes_freeze hv
  rw [hfreeze]
  refine Workspace.allOrNothing_guarding_bind hs hu₁ hwrites ha.not_above fun b u₂ hb hu₂ => ?_
  have hsecond : Build.Keeps (settings.workPath.child name).place
      (CompositeBuilder.WorksIn ⟨settings.workPath.child name⟩)
      (second.forM CompositeBuilder.visit) :=
    .forM fun term _ => CompositeBuilder.keeps_visit _ term
  rw [hb.workspace]
  exact Workspace.allOrNothing_guarding_bind hs hu₂ (hsecond.build hb) ha.not_above
    fun b u₃ hb hu₃ => hu₃.allOrNothing hs ha.not_above
      (CompositeBuilder.allOrNothing_write hu₃.sound (hu₃.inUse ha) hb ha.out)

end TripleStore
