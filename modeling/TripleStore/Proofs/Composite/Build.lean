import TripleStore.Proofs.Composite.Passes

/-!
# Building composite dictionaries

What the second pass writes is a directory of two files that open as a composite dictionary over the
same vocabulary and split terms the same way (`CompositeBuilder.write_of_visited`). So whatever two
passes visit, the dictionary that is published resolves the terms of the second one
(`Composite.resolves_of_build`).
-/

namespace TripleStore

namespace Composite

/-! ## Opening -/

theorem flagsOf_and_flag (mode : SplitMode) : flagsOf mode &&& flag ≠ 0 := by
  cases mode <;> decide

theorem ofTag?_flagsOf (mode : SplitMode) :
    SplitMode.ofTag? ((flagsOf mode).toNat % 256) = some mode := by
  cases mode <;> rfl

/-- How terms were split is read back from the header of the entries. -/
theorem ofDictionaries_of_header {entries shared : Dictionary} {splitter : Splitter}
    (hflags : entries.layout.header.flags = flagsOf splitter.mode)
    (haux : entries.layout.header.aux = splitter.minShared) :
    ofDictionaries entries shared = .ok ⟨entries, shared, splitter⟩ := by
  simp only [ofDictionaries, hflags, haux, ofTag?_flagsOf]
  exact bind_eq_ok.2 ⟨(), require_eq_ok.2 (flagsOf_and_flag _), rfl⟩

/-- A directory holds the two files of a composite dictionary. -/
structure Stored (c : Composite) (held : Place → Option Entry) : Prop where
  folder : held [] = some .directory
  sharedFile : ∃ content, held [sharedFile] = some (.file content) ∧
    Dictionary.ofBytes content = .ok c.shared
  entriesFile : ∃ content, held [entriesFile] = some (.file content) ∧
    Dictionary.ofBytes content = .ok c.entries
  header : ofDictionaries c.entries c.shared = .ok c

variable {c : Composite} {t : FileTree} {p : Path}

/-- **A stored composite dictionary is opened.** -/
theorem openAt_of_stored (hf : t.HasFolder p)
    (h : c.Stored fun rest => t.lookup (p.place ++ rest)) :
    (openAt p).apply t = (.ok c, t) := by
  have hshared := openDictionary_of_lookup hf (by decide) h.sharedFile
  have hentries := openDictionary_of_lookup hf (by decide) h.entriesFile
  rw [openAt, Disk.apply_bind_of_ok hshared, Disk.apply_bind_of_ok hentries,
    Disk.apply_ofResult, h.header]

/-- The files that two passes write are below 2⁶³ bytes. -/
structure Small (settings : Settings) (fingerprint : String → UInt64)
    (first second : List String) : Prop where
  shared : ∀ file n, Dictionary.fileOf (vocabularyOf settings fingerprint first) 0 0 =
    .ok (file, n) → file.size < 2 ^ 63
  entries : ∀ file n, Dictionary.fileOf
    (entriesOf (vocabularyOf settings fingerprint first) settings.splitter second)
    (flagsOf settings.splitter.mode) settings.splitter.minShared = .ok (file, n) →
      file.size < 2 ^ 63

/-- Fingerprints of listed terms can be compared one by one. -/
theorem injOn_of_forall {fingerprint : String → UInt64} {terms : List String} {s : Set String}
    (h : ∀ a ∈ terms, ∀ b ∈ terms, fingerprint a = fingerprint b → a = b)
    (hs : ∀ term ∈ s, term ∈ terms) : Set.InjOn fingerprint s :=
  fun a ha b hb => h a (hs a ha) b (hs b hb)

/-- **Short terms make small files**: no file is longer than the terms that it is made of by more
than 13 bytes for each of them. -/
theorem small_of_sum {settings : Settings} {fingerprint : String → UInt64}
    {first second : List String} (hfirst : 120 + (first.map (·.utf8ByteSize + 8)).sum < 2 ^ 63)
    (hsecond : 120 + (second.map (·.utf8ByteSize + 13)).sum < 2 ^ 63) :
    Small settings fingerprint first second := by
  refine ⟨fun file n hfile => ?_, fun file n hfile => ?_⟩
  · have hlt := strictlyAscending_vocabularyOf settings fingerprint first
    obtain ⟨file', hfile', hsize, -⟩ := Dictionary.holds_of_fileOf hlt 0 0
    obtain ⟨rfl, -⟩ := Prod.mk.inj (Except.ok.inj (hfile.symm.trans hfile'))
    have hroom := Dictionary.room_le_of_subset hlt fun s hs => mem_candidatesOf_of_mem hs
    have hcandidates := room_candidatesOf_le settings.splitter fingerprint first
    omega
  · have hlt := strictlyAscending_entriesOf (vocabularyOf settings fingerprint first)
      settings.splitter second
    obtain ⟨file', hfile', hsize, -⟩ := Dictionary.holds_of_fileOf hlt
      (flagsOf settings.splitter.mode) settings.splitter.minShared
    obtain ⟨rfl, -⟩ := Prod.mk.inj (Except.ok.inj (hfile.symm.trans hfile'))
    have hroom := Dictionary.room_le_of_subset hlt fun s hs =>
      List.mem_map.2 (mem_entriesOf.1 hs)
    have hentries := room_entries_le (vocabularyOf settings fingerprint first) settings.splitter
      second
    omega

/-- A composite dictionary and its numbers are those of terms over a vocabulary: its files are the
ones that writers make of the vocabulary and of the entries. -/
structure Holds (c : Composite) (stats : CompositeStats) (vocabulary : List ByteArray)
    (terms : List String) : Prop where
  shared : c.shared.Holds vocabulary
  entries : c.entries.Holds (entriesOf vocabulary c.splitter terms)
  sharedFile : Dictionary.fileOf vocabulary 0 0 = .ok (c.shared.data, vocabulary.length)
  entriesFile : Dictionary.fileOf (entriesOf vocabulary c.splitter terms)
    (flagsOf c.splitter.mode) c.splitter.minShared =
      .ok (c.entries.data, (entriesOf vocabulary c.splitter terms).length)
  stats_eq : stats = (entriesOf vocabulary c.splitter terms).foldl CompositeBuilder.count
    ⟨0, vocabulary.length, 0, 0, 0⟩

end Composite

/-! ## Writing -/

namespace CompositeBuilder

open Composite

variable {settings : Settings} {fingerprint : String → UInt64} {folder out : Path}
  {first terms : List String} {t : FileTree} {b : CompositeBuilder}

/-- **Both files are written beside the runs.** -/
theorem writeFiles_of_visited (hs : t.Sound)
    (h : b.Visited settings fingerprint folder first t terms) (hout : t.HasFolder out)
    (hvacant : ∀ name, t.lookup (out.place ++ [name]) = none) (hapart : out.place ≠ folder.place)
    (hsmall : Small settings fingerprint first terms) :
    ∃ (stats : CompositeStats) (c : Composite) (t' : FileTree),
      (b.writeFiles out).apply t = (.ok stats, t') ∧ t'.Sound ∧
      t'.lookup folder.place = some .directory ∧
      (∀ q, ¬ folder.place <+: q → ¬ out.place <+: q → t'.lookup q = t.lookup q) ∧
      c.splitter = settings.splitter ∧
      c.Holds stats (vocabularyOf settings fingerprint first) terms ∧
      c.Stored fun rest => t'.lookup (out.place ++ rest) := by
  obtain ⟨t₁, hdrain, hoff⟩ := Sorter.drain_of_holds hs h.entries
  have hkeep₁ := fun q => hoff.lookup_directory h.entries.free (q := q)
  have hvacant₁ : ∀ name, t₁.lookup (out.place ++ [name]) = none := fun name => by
    rw [hoff.outside _ fun i heq => hapart (List.append_inj_left' heq rfl), hvacant]
  obtain ⟨file, hfile, -, hopens⟩ := Dictionary.holds_of_fileOf
    (strictlyAscending_entriesOf (vocabularyOf settings fingerprint first) settings.splitter terms)
    (flagsOf settings.splitter.mode) settings.splitter.minShared
  have hlimit : file.size < limit64 := by
    have := hsmall.entries file _ hfile
    rw [limit64]
    omega
  obtain ⟨entries, hopen, hentries, hdata, hflags, haux⟩ := hopens hlimit
  -- the file of the entries
  have hfolder₁ : t₁.HasFolder out := hout.mono hkeep₁
  have hplace := Path.place_child out (show entriesFile ≠ ".." by decide)
  obtain ⟨t₂, hwrite, hplaced₂⟩ := Dictionary.writeFile_of_fileOf hfile
    (FileTree.allowsFile_child hoff.sound hfolder₁ (show entriesFile ≠ ".." by decide)
      (by simp [hvacant₁]))
  rw [hplace] at hplaced₂
  -- the copy of the file of the vocabulary
  have hdots : sharedFile ≠ ".." := by decide
  have hfolder₂ : t₂.HasFolder out := hplaced₂.hasFolder hfolder₁
  have hvacant₂ : t₂.lookup (out.place ++ [sharedFile]) = none := by
    rw [hplaced₂.lookup_of_ne (by simp [sharedFile, entriesFile]), hvacant₁]
  have hsource : (folder.child sharedFile).place = folder.place ++ [sharedFile] :=
    Path.place_child folder hdots
  have hstored₂ : t₂.lookup (folder.child sharedFile).place = some (.file b.shared.data) := by
    rw [hsource, hplaced₂.lookup_of_ne (by simp [sharedFile, entriesFile]),
      stored_of_offRuns h hoff]
  obtain ⟨t₃, hcopy, hplaced₃⟩ := Disk.copy_of_names hplaced₂.sound
    (FileTree.names_child (hplaced₂.hasFolder (h.entries.hasFolder.mono hkeep₁)) hdots) rfl hstored₂
    hfolder₂ hdots (by simp [hvacant₂])
    (by rw [hsource]; exact fun heq => hapart (List.append_inj_left' heq rfl).symm)
  refine ⟨(entriesOf (vocabularyOf settings fingerprint first) settings.splitter terms).foldl count
      ⟨0, b.shared.count, 0, 0, 0⟩,
    ⟨entries, b.shared, settings.splitter⟩, t₃, ?_, hplaced₃.sound, ?_, fun q hqf hqo => ?_, rfl,
    ⟨h.shared, hentries, h.sharedFile, by rw [hdata, hfile], by rw [h.shared.count]⟩,
    ⟨?_, ⟨_, ?_, h.opens⟩, ⟨file, ?_, hopen⟩, ofDictionaries_of_header hflags haux⟩⟩
  · have hcheck : b.workspace.check.apply t = (.ok (), t) := by
      rw [h.workspace]
      exact Disk.requireFolder_of_hasFolder h.entries.hasFolder
    rw [writeFiles, Disk.apply_bind_of_ok hcheck, Disk.apply_bind_of_ok hdrain, h.splitter_eq,
      h.workspace]
    exact (Disk.apply_bind_of_ok hwrite).trans (Disk.apply_bind_of_ok hcopy)
  · have hprivate := h.entries.hasFolder.lookup_place
    exact hplaced₃.lookup_directory (hplaced₂.lookup_directory (hkeep₁ _ hprivate))
  · have hbeside : ∀ name, q ≠ out.place ++ [name] := by
      rintro name rfl
      exact hqo (List.prefix_append _ _)
    rw [hplaced₃.lookup_of_ne (hbeside _), hplaced₂.lookup_of_ne (hbeside _), hoff.outside]
    rintro i rfl
    exact hqf (List.prefix_append _ _)
  · rw [List.append_nil]
    exact hplaced₃.lookup_directory hfolder₂.lookup_place
  · exact hplaced₃.lookup_self
  · rw [hplaced₃.lookup_of_ne (by simp [sharedFile, entriesFile]), hplaced₂.lookup_self]

variable {work : Path} {name : String} {target : Destination} {t₁ t₂ : FileTree}

/-- **What the second pass writes holds the entries of its terms.** -/
theorem write_of_visited (hr : t.Ready work target.path) (hname : name ≠ "..")
    (ho : t.Opened work name t₁)
    (hi : t₁.Inside (work.place ++ [name]) t₂)
    (h : b.Visited settings fingerprint (work.child name) first t₂ terms)
    (hlength : terms.length = first.length)
    (hsmall : Small settings fingerprint first terms) :
    ∃ (stats : CompositeStats) (c : Composite) (held : Place → Option Entry) (t' : FileTree),
      (b.write target).apply t₂ = (.ok stats, t') ∧ t.Built work target.path held t' ∧
      c.splitter = settings.splitter ∧
      c.Holds stats (vocabularyOf settings fingerprint first) terms ∧ c.Stored held := by
  have ha := hr.awaits ho hi
  have hplace := Path.place_child work hname
  have hfill : Disk.FillsBeside t₂ target (work.place ++ [name])
      (fun folder => b.writeFiles folder.path)
      fun stats held => ∃ c : Composite, c.splitter = settings.splitter ∧
        c.Holds stats (vocabularyOf settings fingerprint first) terms ∧ c.Stored held := by
    intro fresh t' hfresh hopened hfs hsf
    have hout := Path.place_child target.path.parent hfresh
    rw [← hplace] at ha hfs hsf
    rw [← hout] at hfs hsf
    have hvisited : b.Visited settings fingerprint (work.child name) first t' terms :=
      { h with
        stored := by
          rw [ha.lookup_of_opened (work.child name).place_ne_nil hopened (hout ▸ hfs)
            (List.prefix_append _ _), h.stored]
        entries := h.entries.of_opened ha hopened (hout ▸ hfs) }
    have hfolder : t'.HasFolder (target.path.parent.child fresh) :=
      (FileTree.hasFolder_child hfresh).2 ⟨hopened.hasFolder, hopened.lookup_place⟩
    have hvacant : ∀ name, t'.lookup ((target.path.parent.child fresh).place ++ [name]) = none :=
      fun name => by rw [hout, hopened.lookup_below hi.sound (List.prefix_append _ _) (by simp)]
    obtain ⟨stats, c, t'', hrun, hs'', hprivate, hothers, hsplitter, hheld, hstored⟩ :=
      writeFiles_of_visited hopened.sound hvisited hfolder hvacant
        (fun heq => hfs (heq ▸ List.prefix_refl _)) hsmall
    have hdirectory := hstored.folder
    simp only [List.append_nil] at hdirectory
    exact ⟨stats, t'', hrun, hs'', hplace ▸ hprivate, hout ▸ hdirectory,
      hplace ▸ hout ▸ hothers, c, hsplitter, hheld, hout ▸ hstored⟩
  obtain ⟨stats, t₃, hstaged, hpublished, c, hsplitter, hheld, hstored⟩ :=
    Disk.staged_of_awaits hi.sound hi.lookup_place (by simp) ha hfill
  have hvisits : (Disk.ofResult (require (b.visits = b.expected) (.invalid .visitCount))).apply t₂ =
      (.ok (), t₂) := by
    rw [Disk.apply_ofResult, require, if_pos (by rw [h.visits, h.expected, hlength])]
  have hbody : (do
      Disk.ofResult (require (b.visits = b.expected) (.invalid .visitCount))
      Disk.staged target fun folder => b.writeFiles folder.path : Disk CompositeStats).apply t₂ =
        (.ok stats, t₃) := by
    rw [Disk.apply_bind_of_ok hvisits, hstaged]
  obtain ⟨t', hrun, hbuilt⟩ :=
    Workspace.consume_of_published hr hname ho hi hbody hpublished
  refine ⟨stats, c, _, t', ?_, hbuilt, hsplitter, hheld, hstored⟩
  rw [write, h.workspace, hrun]

/-- A second pass that visits another number of terms is refused at the end. -/
theorem write_of_length_ne (h : b.Visited settings fingerprint folder first t terms)
    (hne : terms.length ≠ first.length) (target : Destination) :
    ((b.write target).apply t).1 = .error (.invalid .visitCount) := by
  refine write_of_visits_ne ?_ target
  rwa [h.visits, h.expected]

end CompositeBuilder

/-! ## The whole build -/

namespace Composite

variable {settings : Settings} {fingerprint : String → UInt64} {first second : List String}
  {t : FileTree} {target : Destination}

/-- The first pass of a build is over, and its private directory is in use. -/
structure Begun (settings : Settings) (fingerprint : String → UInt64) (first : List String)
    (t : FileTree) (b : CompositeBuilder) (name : String) (t₁ t₂ : FileTree) : Prop where
  dots : name ≠ ".."
  opened : t.Opened settings.workPath name t₁
  inside : t₁.Inside (settings.workPath.place ++ [name]) t₂
  visited : b.Visited settings fingerprint (settings.workPath.child name) first t₂ []

/-- **A first pass over terms that do not look coded succeeds.** -/
theorem firstPass_of_plain (hs : t.Sound) (hp : t.Passable settings.workPath)
    (hc : settings.compressRuns = false)
    (hplain : ∀ term ∈ first, Code.looksCoded term.toUTF8 = false)
    (hbytes : ∀ term ∈ first, term.utf8ByteSize < 2 ^ 63)
    (hsmall : Small settings fingerprint first second) :
    ∃ name b t₁ t₂, (firstPass settings fingerprint first).apply t = (.ok b, t₂) ∧
      Begun settings fingerprint first t b name t₁ t₂ := by
  obtain ⟨name, b, t₁, hcreate, hdots, ho, hvisited⟩ :=
    VocabularyBuilder.create_visited hs hp hc fingerprint
  obtain ⟨b', t₂, hrun, hvisited', hin⟩ :=
    VocabularyBuilder.forM_visit_of_visited ho.sound hvisited hplain hbytes
  obtain ⟨b'', t₃, hfreeze, hvisited'', hin'⟩ :=
    VocabularyBuilder.freeze_of_visited hin.sound hvisited' hsmall.shared
  have hinside := hin.trans hin'
  rw [Path.place_child _ hdots] at hinside
  refine ⟨name, b'', t₁, t₃, ?_, hdots, ho, hinside, hvisited''⟩
  rw [firstPass, Disk.apply_bind_of_ok hcreate,
    Disk.apply_bind_of_ok (Workspace.apply_guarding _ (Disk.apply_build hrun)), hfreeze]

/-- **A first pass fails at a term that looks coded.** -/
theorem firstPass_of_looksCoded {before after : List String} {coded : String} (hs : t.Sound)
    (hp : t.Passable settings.workPath) (hc : settings.compressRuns = false)
    (hplain : ∀ term ∈ before, Code.looksCoded term.toUTF8 = false)
    (hbytes : ∀ term ∈ before, term.utf8ByteSize < 2 ^ 63)
    (hcoded : Code.looksCoded coded.toUTF8 = true) :
    ((firstPass settings fingerprint (before ++ coded :: after)).apply t).1 =
      .error (.invalid .codedTerm) := by
  obtain ⟨name, b, t₁, hcreate, -, ho, hvisited⟩ :=
    VocabularyBuilder.create_visited hs hp hc fingerprint
  obtain ⟨b', t₂, hrun, -, -⟩ :=
    VocabularyBuilder.forM_visit_of_visited ho.sound hvisited hplain hbytes
  rw [firstPass, Disk.apply_bind_of_ok hcreate]
  refine Disk.apply_bind_of_error ?_
  rw [Workspace.guarding, Disk.fst_apply_undoing]
  refine Disk.fst_apply_build (Build.fst_apply_forM_append hrun ?_)
  rw [VocabularyBuilder.visit_of_looksCoded hcoded]

section

variable (hr : t.Ready settings.workPath target.path) (hc : settings.compressRuns = false)
  (hplain : ∀ term ∈ first, Code.looksCoded term.toUTF8 = false)
  (hbytes : ∀ term ∈ first, term.utf8ByteSize < 2 ^ 63)
  (hseen : ∀ term ∈ second, term ∈ first) (hlength : second.length = first.length)
  (hsmall : Small settings fingerprint first second)

include hr hc hplain hbytes hseen hlength hsmall

/-- **A build over terms that do not look coded, whose second pass visits as many of them, publishes
the dictionary of the terms of the second pass** over the vocabulary of the first one. -/
theorem holds_of_ready :
    ∃ (b : CompositeBuilder) (t₁ : FileTree) (stats : CompositeStats) (c : Composite)
      (held : Place → Option Entry) (t' : FileTree),
      (firstPass settings fingerprint first).apply t = (.ok b, t₁) ∧
      b.shared.Holds (vocabularyOf settings fingerprint first) ∧
      (build settings first second target fingerprint).apply t = (.ok stats, t') ∧
      t.Built settings.workPath target.path held t' ∧ c.Stored held ∧
      c.splitter = settings.splitter ∧
      c.Holds stats (vocabularyOf settings fingerprint first) second := by
  obtain ⟨name, b, t₁, t₂, hfirst, hdots, ho, hi, hvisited⟩ :=
    firstPass_of_plain hr.sound hr.passable hc hplain hbytes hsmall
  obtain ⟨b', t₃, hrun, hvisited', hin⟩ :=
    CompositeBuilder.forM_visit_of_visited hi.sound hvisited hseen hbytes
  rw [Path.place_child _ hdots] at hin
  obtain ⟨stats, c, held, t', hwrite, hbuilt, hsplitter, hholds, hstored⟩ :=
    CompositeBuilder.write_of_visited hr hdots ho (hi.trans hin) hvisited' hlength hsmall
  refine ⟨b, t₂, stats, c, held, t', hfirst, hvisited.shared, ?_, hbuilt, hstored, hsplitter,
    hholds⟩
  rw [build, Disk.apply_bind_of_ok hfirst,
    Disk.apply_bind_of_ok (Workspace.apply_guarding _ (Disk.apply_build hrun)), hwrite]

/-- What a build publishes resolves exactly the terms of the second pass. -/
theorem built_of_ready :
    ∃ (stats : CompositeStats) (c : Composite) (held : Place → Option Entry) (t' : FileTree),
      (build settings first second target fingerprint).apply t = (.ok stats, t') ∧
      t.Built settings.workPath target.path held t' ∧ c.Stored held ∧
      c.Resolves second.toFinset := by
  obtain ⟨-, -, stats, c, held, t', -, -, hrun, hbuilt, hstored, -, hholds⟩ :=
    holds_of_ready hr hc hplain hbytes hseen hlength hsmall
  exact ⟨stats, c, held, t', hrun, hbuilt, hstored,
    resolves_of_holds hholds.shared hholds.entries fun term hterm =>
      hplain term (hseen term hterm)⟩

end

/-- What decides whether two passes make a composite dictionary: whether a term of the first pass
looks coded, whether the second one visits a term that the first one does not, and whether it visits
as many. -/
def verdict (first second : List String) : Result Unit := do
  first.forM fun term => require (Code.looksCoded term.toUTF8 = false) (.invalid .codedTerm)
  second.forM fun term => require (term ∈ first) (.unseenTerm term)
  require (second.length = first.length) (.invalid .visitCount)

theorem verdict_eq_ok {u : Unit} : verdict first second = .ok u ↔
    (∀ term ∈ first, Code.looksCoded term.toUTF8 = false) ∧ (∀ term ∈ second, term ∈ first) ∧
      second.length = first.length := by
  simp only [verdict, bind_eq_ok, forM_require_eq_ok, require_eq_ok, exists_const]

/-- A second pass fails at a term that the first one did not visit. -/
theorem build_of_unseen {before after : List String} {unseen : String}
    (hr : t.Ready settings.workPath target.path) (hc : settings.compressRuns = false)
    (hplain : ∀ term ∈ first, Code.looksCoded term.toUTF8 = false)
    (hbytes : ∀ term ∈ first, term.utf8ByteSize < 2 ^ 63)
    (hseen : ∀ term ∈ before, term ∈ first) (hunseen : fingerprint unseen ∉ first.map fingerprint)
    (hsmall : Small settings fingerprint first second) :
    ((build settings first (before ++ unseen :: after) target fingerprint).apply t).1 =
      .error (.unseenTerm unseen) := by
  obtain ⟨name, b, t₁, t₂, hfirst, -, -, hi, hvisited⟩ :=
    firstPass_of_plain hr.sound hr.passable hc hplain hbytes hsmall
  obtain ⟨b', t₃, hrun, hvisited', -⟩ :=
    CompositeBuilder.forM_visit_of_visited hi.sound hvisited hseen hbytes
  rw [build, Disk.apply_bind_of_ok hfirst]
  refine Disk.apply_bind_of_error ?_
  rw [Workspace.guarding, Disk.fst_apply_undoing]
  refine Disk.fst_apply_build (Build.fst_apply_forM_append hrun ?_)
  rw [CompositeBuilder.visit_of_unseen hvisited' hunseen]

/-- A build fails at its end if the second pass visited another number of terms. -/
theorem build_of_length_ne (hr : t.Ready settings.workPath target.path)
    (hc : settings.compressRuns = false)
    (hplain : ∀ term ∈ first, Code.looksCoded term.toUTF8 = false)
    (hbytes : ∀ term ∈ first, term.utf8ByteSize < 2 ^ 63)
    (hseen : ∀ term ∈ second, term ∈ first) (hne : second.length ≠ first.length)
    (hsmall : Small settings fingerprint first second) :
    ((build settings first second target fingerprint).apply t).1 =
      .error (.invalid .visitCount) := by
  obtain ⟨name, b, t₁, t₂, hfirst, -, -, hi, hvisited⟩ :=
    firstPass_of_plain hr.sound hr.passable hc hplain hbytes hsmall
  obtain ⟨b', t₃, hrun, hvisited', -⟩ :=
    CompositeBuilder.forM_visit_of_visited hi.sound hvisited hseen hbytes
  rw [build, Disk.apply_bind_of_ok hfirst,
    Disk.apply_bind_of_ok (Workspace.apply_guarding _ (Disk.apply_build hrun))]
  exact CompositeBuilder.write_of_length_ne hvisited' hne target

/-- **A build fails where its verdict does.** -/
theorem fst_build_of_verdict {e : StoreError} (hr : t.Ready settings.workPath target.path)
    (hc : settings.compressRuns = false) (hbytes : ∀ term ∈ first, term.utf8ByteSize < 2 ^ 63)
    (hinj : Set.InjOn fingerprint {term | term ∈ first ∨ term ∈ second})
    (hsmall : Small settings fingerprint first second) (he : verdict first second = .error e) :
    ((build settings first second target fingerprint).apply t).1 = .error e := by
  rcases forM_require_cases first (fun term => Code.looksCoded term.toUTF8 = false)
      (fun _ => .invalid .codedTerm) with
    ⟨hplain, hfirst⟩ | ⟨before, coded, after, rfl, hplain, hcoded, hfirst⟩
  · rcases forM_require_cases second (· ∈ first) .unseenTerm with
      ⟨hseen, hsecond⟩ | ⟨before, unseen, after, rfl, hseen, hunseen, hsecond⟩
    · simp only [verdict, hfirst, hsecond, bind, Except.bind] at he
      have hne : second.length ≠ first.length := fun heq => by
        rw [require, if_pos heq] at he
        cases he
      rw [require, if_neg hne] at he
      rw [← Except.error.inj he]
      exact build_of_length_ne hr hc hplain hbytes hseen hne hsmall
    · simp only [verdict, hfirst, hsecond, bind, Except.bind] at he
      rw [← Except.error.inj he]
      refine build_of_unseen hr hc hplain hbytes hseen (fun hmem => hunseen ?_) hsmall
      obtain ⟨term, hterm, heq⟩ := List.mem_map.1 hmem
      rwa [← hinj (.inl hterm) (.inr (by simp)) heq]
  · simp only [verdict, hfirst, bind, Except.bind] at he
    rw [← Except.error.inj he, build]
    exact Disk.apply_bind_of_error (firstPass_of_looksCoded hr.sound hr.passable hc hplain
      (fun term hterm => hbytes term (by simp [hterm])) (by simpa using hcoded))

/-- What was built can be opened. -/
theorem openAt_of_built {work : Path} {c : Composite} {held : Place → Option Entry}
    {t' : FileTree} (hr : t.Ready work target.path) (hb : t.Built work target.path held t')
    (h : c.Stored held) : (openAt target.path).apply t' = (.ok c, t') := by
  refine openAt_of_stored (hb.hasFolder hr h.folder) ?_
  rwa [funext hb.inside]

/-- **Whatever terms two passes visit, the published dictionary opens and resolves exactly those of
the second pass**, under each of the settings, if the first pass accepts its terms and sees all that
the second one visits. No text is as long as 2⁶³ bytes. -/
theorem resolves_of_build (hr : t.Ready settings.workPath target.path)
    (hc : settings.compressRuns = false)
    (hplain : ∀ term ∈ first, Code.looksCoded term.toUTF8 = false)
    (hbytes : ∀ term ∈ first, term.utf8ByteSize < 2 ^ 63)
    (hseen : ∀ term ∈ second, term ∈ first) (hlength : second.length = first.length)
    (hsmall : Small settings fingerprint first second) :
    ∃ (stats : CompositeStats) (c : Composite) (t' : FileTree),
      (build settings first second target fingerprint).apply t = (.ok stats, t') ∧
      (openAt target.path).apply t' = (.ok c, t') ∧ c.Resolves second.toFinset := by
  obtain ⟨stats, c, held, t', hrun, hbuilt, hstored, hresolves⟩ :=
    built_of_ready hr hc hplain hbytes hseen hlength hsmall
  exact ⟨stats, c, t', hrun, openAt_of_built hr hbuilt hstored, hresolves⟩

/-- Two IRIs of one namespace, visited in different orders; one of them is visited twice by the
first pass, the other one by the second pass. -/
theorem resolves_of_build_swapped :
    ((FileTree.empty.Ready Settings.default.workPath ⟨true, ["out"], .name⟩ ∧
      Settings.default.compressRuns = false) ∧
      (∀ term ∈ ["<http://a/b>", "<http://a/c>", "<http://a/b>"],
        Code.looksCoded term.toUTF8 = false) ∧
      Small Settings.default mixedFingerprint ["<http://a/b>", "<http://a/c>", "<http://a/b>"]
        ["<http://a/c>", "<http://a/c>", "<http://a/b>"]) ∧
    ∃ (stats : CompositeStats) (c : Composite) (t' : FileTree),
      (build Settings.default ["<http://a/b>", "<http://a/c>", "<http://a/b>"]
        ["<http://a/c>", "<http://a/c>", "<http://a/b>"] ⟨⟨true, ["out"], .name⟩, "/out"⟩
        mixedFingerprint).apply FileTree.empty = (.ok stats, t') ∧
      (openAt ⟨true, ["out"], .name⟩).apply t' = (.ok c, t') ∧
      c.Resolves ["<http://a/c>", "<http://a/c>", "<http://a/b>"].toFinset := by
  have hplain : ∀ term ∈ ["<http://a/b>", "<http://a/c>", "<http://a/b>"],
      Code.looksCoded term.toUTF8 = false := by decide
  have hsmall : Small Settings.default mixedFingerprint
      ["<http://a/b>", "<http://a/c>", "<http://a/b>"]
      ["<http://a/c>", "<http://a/c>", "<http://a/b>"] := small_of_sum (by decide) (by decide)
  exact ⟨⟨⟨FileTree.ready_out, rfl⟩, hplain, hsmall⟩,
    resolves_of_build FileTree.ready_out rfl hplain (by decide) (by decide) rfl hsmall⟩

end Composite

end TripleStore
