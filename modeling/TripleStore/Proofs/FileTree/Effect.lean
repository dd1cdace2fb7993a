import TripleStore.Proofs.Workspace

/-!
# What changes did

Each change of a tree that succeeds says what was there before it and what it did. Two relations
carry this over any number of changes: directories were made where nothing stood (`FileTree.Made`),
and besides what is below one directory only some files were written (`FileTree.Wrote`).
-/

namespace TripleStore.FileTree

variable {t t₁ t₂ t₃ t' : FileTree} {p folder source target : Path} {f q : Place} {e : Entry}
  {name : String}

/-! ## Changes that succeeded -/

/-- A file is written where there is no directory, and nothing else changes. -/
theorem of_write {content : ByteArray} (h : t.write p content = .ok t') :
    t.locate p = .ok p.place ∧ p.ending ≠ .slash ∧ t.lookup p.place ≠ some .directory ∧
      ∀ q, t'.lookup q = if q = p.place then some (.file content) else t.lookup q := by
  simp only [FileTree.write, bind_eq_ok, refuse_eq_ok, not_or] at h
  obtain ⟨l, hl, ⟨hslash, hold⟩, hput⟩ := h
  obtain rfl := (locate_eq_ok.1 hl).2
  obtain rfl : t.put p.place (.file content) = t' := Except.ok.inj hput
  have hroot : p.place.isRoot = false := Bool.eq_false_iff.2 fun h => hold (lookup_of_isRoot h)
  exact ⟨hl, hslash, hold, lookup_put hroot⟩

/-- Directories are still there when a file has been written. -/
theorem lookup_directory_of_write {content : ByteArray} (h : t.write p content = .ok t')
    (hq : t.lookup q = some .directory) : t'.lookup q = some .directory := by
  obtain ⟨-, -, hold, hlookup⟩ := of_write h
  rw [hlookup, if_neg, hq]
  rintro rfl
  exact hold hq

/-- A path is located as it was when a file has been written. -/
theorem locate_of_write {other : Path} {content : ByteArray} (h : t.write p content = .ok t')
    (hother : t.locate other = .ok q) : t'.locate other = .ok q := by
  obtain ⟨⟨hblank, hleads, hdot⟩, rfl⟩ := locate_eq_ok.1 hother
  exact locate_eq_ok.2 ⟨⟨hblank, fun l hl => lookup_directory_of_write h (hleads l hl),
    fun hend => lookup_directory_of_write h (hdot hend)⟩, rfl⟩

/-- What is written is read. -/
theorem read_of_write {content : ByteArray} (h : t.write p content = .ok t') :
    t'.read p = .ok content := by
  obtain ⟨hlocate, hslash, -, hlookup⟩ := of_write h
  exact read_eq_ok.2 (find_eq_ok.2 ⟨⟨locate_of_write h hlocate, fun hend => absurd hend hslash⟩,
    by rw [hlookup, if_pos rfl]⟩)

/-- Other files are read as they were. -/
theorem read_of_write_of_ne {other : Path} {content held : ByteArray}
    (h : t.write p content = .ok t') (hne : other.place ≠ p.place)
    (hother : t.read other = .ok held) : t'.read other = .ok held := by
  obtain ⟨-, -, -, hlookup⟩ := of_write h
  obtain ⟨⟨hlocate, hslash⟩, hfile⟩ := find_eq_ok.1 (read_eq_ok.1 hother)
  refine read_eq_ok.2 (find_eq_ok.2 ⟨⟨locate_of_write h hlocate, fun hend => ?_⟩, ?_⟩)
  · exact lookup_directory_of_write h (hslash hend)
  · rw [hlookup, if_neg hne, hfile]

theorem of_write_child {content : ByteArray} (hs : t.Sound) (hname : name ≠ "..")
    (h : t.write (folder.child name) content = .ok t') :
    t.HasFolder folder ∧ t.Placed (folder.place ++ [name]) (.file content) t' := by
  obtain ⟨hlocate, -, hold, -⟩ := of_write h
  obtain ⟨-, hleads, -⟩ := (locate_eq_ok.1 hlocate).1
  rw [Path.place_child folder hname] at hold
  have hf := leads_child.1 hleads
  obtain ⟨t₁, hwrite, hplaced⟩ := hf.write hs hname hold content
  obtain rfl : t' = t₁ := Except.ok.inj (h.symm.trans hwrite)
  exact ⟨hf, hplaced⟩

theorem of_makeFresh {stem : String} (hs : t.Sound) (h : t.makeFresh folder stem e = .ok (p, t')) :
    ∃ k : Nat, p = folder.child (stem ++ toString k) ∧ t.HasFolder folder ∧ t.given ≤ k ∧
      t.lookup (folder.place ++ [stem ++ toString k]) = none ∧
      t.Placed (folder.place ++ [stem ++ toString k]) e t' := by
  have hbind := h
  rw [FileTree.makeFresh, bind_eq_ok] at hbind
  obtain ⟨l, hl, -⟩ := hbind
  obtain ⟨hf, -⟩ := folder_eq_ok.1 hl
  obtain ⟨k, t₁, hfresh, hgiven, habsent, hplaced⟩ := hf.makeFresh hs stem e
  obtain ⟨rfl, rfl⟩ := Prod.mk.inj (Except.ok.inj (h.symm.trans hfresh))
  exact ⟨k, rfl, hf, hgiven, habsent, hplaced⟩

theorem of_makeDirectory (hs : t.Sound) (h : t.makeDirectory p = .ok t') :
    t.lookup p.place = none ∧ t.Placed p.place .directory t' := by
  simp only [FileTree.makeDirectory, bind_eq_ok, refuse_eq_ok, Option.not_isSome_iff_eq_none] at h
  obtain ⟨l, hl, hnone, hput⟩ := h
  obtain ⟨⟨-, hleads, -⟩, rfl⟩ := locate_eq_ok.1 hl
  obtain rfl : t.put p.place .directory = t' := Except.ok.inj hput
  have hold : t.lookup p.place ≠ some .directory := by simp [hnone]
  have hnames : p.names ≠ [] := fun hnil => hold <| by
    rw [Path.place, hnil]
    exact lookup_start t p
  refine ⟨hnone, ?_⟩
  have hplace := hleads.place_eq_append hnames hold
  rw [hplace] at hold ⊢
  exact hs.placed ((hasFolder_parent hnames).2 hleads) hold _

theorem of_moveFile (h : t.moveFile source target = .ok t') :
    t.Names target ∧ target.ending = .name ∧ t.lookup target.place ≠ some .directory ∧
      ∃ content, t.read source = .ok content ∧
        t' = (t.drop source.place).put target.place (.file content) := by
  simp only [FileTree.moveFile, bind_eq_ok, refuse_eq_ok, Bool.not_eq_false] at h
  obtain ⟨⟨m, e⟩, hfind, content, hread, l, hl, hproper, hslash, hold, hmoved⟩ := h
  obtain rfl := (locate_eq_ok.1 (find_eq_ok.1 hfind).1.1).2
  obtain ⟨⟨-, hleads, -⟩, rfl⟩ := locate_eq_ok.1 hl
  refine ⟨⟨hproper, hleads⟩, ?_, hold, content, hread, (Except.ok.inj hmoved).symm⟩
  cases hend : target.ending with
  | name => rfl
  | slash => exact absurd hend hslash
  | dot => exact absurd hend (Path.isProper_iff.1 hproper).2

/-- A file that is moved from where it was just written is read at its destination. -/
theorem load_of_write_of_moveFile {u : FileTree} {bytes : ByteArray}
    (hwrite : t.write source bytes = .ok u) (hmove : u.moveFile source target = .ok t') :
    t'.load target = .ok bytes := by
  obtain ⟨hnames, hend, hfree, content, hread, rfl⟩ := of_moveFile hmove
  obtain rfl : bytes = content := Except.ok.inj ((read_of_write hwrite).symm.trans hread)
  obtain ⟨-, -, hold, hwritten⟩ := of_write hwrite
  have hroot : source.place.isRoot = false := Bool.eq_false_iff.2 fun h =>
    hold (lookup_of_isRoot h)
  have hlookup : ∀ q, ((u.drop source.place).put target.place (.file bytes)).lookup q =
      if q = target.place then some (.file bytes) else if q = source.place then none
        else u.lookup q := by
    intro q
    rw [lookup_put (Path.isRoot_place hnames.proper), lookup_drop hroot]
  refine Names.load ⟨hnames.proper, ?_⟩ hend (by rw [hlookup, if_pos rfl])
  -- the directories on the way to the destination are still there
  intro q hq
  have hdir := hnames.leads q hq
  rw [hlookup, if_neg, if_neg, hdir]
  · rintro rfl
    rw [hwritten, if_pos rfl] at hdir
    cases hdir
  · rintro rfl
    exact hfree hdir

theorem of_removeDirectory (h : t.removeDirectory p = .ok t') :
    t.Names p ∧ t.lookup p.place = some .directory ∧
      ∀ name, t.lookup (p.place ++ [name]) = none := by
  simp only [FileTree.removeDirectory, bind_eq_ok, refuse_eq_ok, Bool.not_eq_true] at h
  obtain ⟨l, hl, hdot, hup, hnames, _, henter, hdrop⟩ := h
  obtain ⟨⟨-, hleads, -⟩, rfl⟩ := locate_eq_ok.1 hl
  refine ⟨⟨by simp [Path.isProper, hnames, hup, hdot], hleads⟩, enter_eq_ok.1 henter,
    (isEmpty_childNames p.place_ne_nil).1 ?_⟩
  by_contra hfull
  simp [hfull, throw, throwThe, MonadExceptOf.throw] at hdrop

theorem of_moveDirectory (h : t.moveDirectory source target = .ok t') :
    t.HasFolder source ∧ t.Names target ∧ (t.lookup target.place = none ∨
      t.lookup target.place = some .directory ∧
        ∀ name, t.lookup (target.place ++ [name]) = none) := by
  simp only [FileTree.moveDirectory, bind_eq_ok, refuse_eq_ok, Bool.not_eq_false] at h
  obtain ⟨_, hsource, l, hl, hproper, h⟩ := h
  obtain ⟨⟨-, hleads, -⟩, rfl⟩ := locate_eq_ok.1 hl
  refine ⟨(folder_eq_ok.1 hsource).1, ⟨hproper, hleads⟩, ?_⟩
  split at h
  · simp [throw, throwThe, MonadExceptOf.throw, bind, Except.bind] at h
  · rename_i hdir
    rw [refuse_eq_ok, Bool.not_eq_false] at h
    exact .inr ⟨hdir, (isEmpty_childNames target.place_ne_nil).1 h.1⟩
  · rename_i hnone
    exact .inl hnone

/-! ## Made directories -/

/-- A place holds what it held, or is one of some places where nothing stood and a directory was
made. -/
def MadeAt (places : List Place) (q : Place) (old new : Option Entry) : Prop :=
  new = old ∨ q ∈ places ∧ old = none ∧ new = some .directory

namespace MadeAt

variable {places more : List Place} {old mid new : Option Entry}

theorem trans (h : MadeAt places q old mid) (h' : MadeAt more q mid new) :
    MadeAt (places ++ more) q old new := by
  rcases h' with rfl | ⟨hq', rfl, rfl⟩
  · exact h.imp_right fun hmade => ⟨List.mem_append_left _ hmade.1, hmade.2⟩
  · rcases h with rfl | ⟨-, -, hdir⟩
    · exact .inr ⟨List.mem_append_right _ hq', rfl, rfl⟩
    · cases hdir

theorem mono (h : MadeAt places q old new) (hsub : q ∈ places → old = none → q ∈ more) :
    MadeAt more q old new :=
  h.imp_right fun ⟨hq, hnone, hdir⟩ => ⟨hsub hq hnone, hnone, hdir⟩

theorem eq_of_notMem (h : MadeAt places q old new) (hq : q ∉ places) : new = old :=
  h.resolve_right fun hmade => hq hmade.1

/-- What is there stays. -/
theorem eq_of_some (h : MadeAt places q (some e) new) : new = some e :=
  h.resolve_right fun hmade => nomatch hmade.2.1

end MadeAt

/-- Directories were made at some of these places, where nothing stood; nothing else changed. -/
structure Made (t : FileTree) (places : List Place) (t' : FileTree) : Prop where
  sound : t'.Sound
  lookup : ∀ q, MadeAt places q (t.lookup q) (t'.lookup q)

/-- Outside of a place, directories were made at some of these places, where nothing stood. -/
def MadeOutside (t : FileTree) (l : Place) (places : List Place) (t' : FileTree) : Prop :=
  ∀ q, ¬ l <+: q → MadeAt places q (t.lookup q) (t'.lookup q)

/-- The missing directories above a path are on the way to it. -/
theorem mem_trail_of_absent (hq : q ∈ p.parent.track) (hnone : t.lookup q = none) :
    q ∈ p.trail := by
  refine (Path.mem_trail_or_isRoot hq).resolve_right fun hroot => ?_
  rw [lookup_of_isRoot hroot] at hnone
  cases hnone

namespace Made

variable {places more : List Place}

theorem refl (hs : t.Sound) : t.Made places t := ⟨hs, fun _ => .inl rfl⟩

theorem mono (h : t.Made places t') (hsub : ∀ q ∈ places, t.lookup q = none → q ∈ more) :
    t.Made more t' := ⟨h.sound, fun q => (h.lookup q).mono (hsub q)⟩

theorem trans (h : t.Made places t₁) (h' : t₁.Made more t') : t.Made (places ++ more) t' :=
  ⟨h'.sound, fun q => (h.lookup q).trans (h'.lookup q)⟩

theorem outside (h : t.Made places t') (l : Place) : t.MadeOutside l places t' :=
  fun q _ => h.lookup q

theorem lookup_of_notMem (h : t.Made places t') (hq : q ∉ places) : t'.lookup q = t.lookup q :=
  (h.lookup q).eq_of_notMem hq

/-- What is there stays. -/
theorem lookup_of_some (h : t.Made places t') (he : t.lookup q = some e) :
    t'.lookup q = some e := (he ▸ h.lookup q).eq_of_some

/-- A fresh directory in a folder whose missing directories were made. -/
theorem opened (h : t.Made folder.track t₁) (hf : t₁.HasFolder folder)
    (hpending : t.IsPending (folder.place ++ [name])) (hgiven : t₁.given = t.given)
    (habsent : t₁.lookup (folder.place ++ [name]) = none)
    (hp : t₁.Placed (folder.place ++ [name]) .directory t') : t.Opened folder name t' := by
  have hout : folder.place ++ [name] ∉ folder.track := fun hmem => by
    rw [hf _ hmem] at habsent
    cases habsent
  refine ⟨hp.sound, hpending, hgiven ▸ hp.given, ?_, hout, fun q => ?_⟩
  · rwa [h.lookup_of_notMem hout] at habsent
  · rw [hp.lookup]
    by_cases hq : q = folder.place ++ [name]
    · simp [hq]
    · by_cases hmem : q ∈ folder.track
      · simp [hq, hmem, hf q hmem]
      · simp [hq, hmem, h.lookup_of_notMem hmem]

/-- A folder in which files can stand had no file on its way before. -/
theorem noFile (h : t.Made places t₁) (hf : t₁.HasFolder p) :
    ∀ l ∈ p.track, ∀ content, t.lookup l ≠ some (.file content) := fun l hl content hfile => by
  have hdir := hf l hl
  rw [h.lookup_of_some hfile] at hdir
  cases hdir

end Made

namespace MadeOutside

variable {l : Place} {places more : List Place}

theorem trans (h : t.MadeOutside l places t₁) (h' : t₁.MadeOutside l more t') :
    t.MadeOutside l (places ++ more) t' := fun q hq => (h q hq).trans (h' q hq)

theorem mono (h : t.MadeOutside l places t')
    (hsub : ∀ q ∈ places, t.lookup q = none → q ∈ more) : t.MadeOutside l more t' :=
  fun q hq => (h q hq).mono (hsub q)

theorem lookup_of_notMem (h : t.MadeOutside l places t') (hl : ¬ l <+: q) (hq : q ∉ places) :
    t'.lookup q = t.lookup q := (h q hl).eq_of_notMem hq

/-- What is there stays. -/
theorem lookup_of_some (h : t.MadeOutside l places t') (hl : ¬ l <+: q)
    (he : t.lookup q = some e) : t'.lookup q = some e := (he ▸ h q hl).eq_of_some

end MadeOutside

/-- On the way to a fresh directory, directories were made. -/
theorem Opened.madeOutside (ho : t.Opened folder name t₁)
    (hfile : ∀ l ∈ folder.track, ∀ content, t.lookup l ≠ some (.file content)) :
    t.MadeOutside (folder.place ++ [name]) folder.track t₁ := by
  intro q hbelow
  have hq : q ≠ folder.place ++ [name] := by
    rintro rfl
    exact hbelow (List.prefix_refl _)
  rw [ho.lookup]
  by_cases hmem : q ∈ folder.track
  · cases he : t.lookup q with
    | none => simp [MadeAt, hmem]
    | some e =>
      cases e with
      | file content => exact absurd he (hfile q hmem content)
      | directory => simp [MadeAt, hmem]
  · simp [MadeAt, hq, hmem]

/-- When a fresh directory is gone again, only directories outside of it were made. -/
theorem Made.of_gone {places : List Place} {l : Place} (hs : t.Sound) (habsent : t.lookup l = none)
    (hne : l ≠ []) (h : t.MadeOutside l places t₂) (hs' : t'.Sound)
    (hlookup : ∀ q, t'.lookup q = if l <+: q then none else t₂.lookup q) : t.Made places t' := by
  refine ⟨hs', fun q => ?_⟩
  rw [hlookup]
  split
  · exact .inl (hs.lookup_of_absent habsent hne ‹_›).symm
  · exact h q ‹_›

/-! ## Written files -/

/-- Besides what is below a directory, just these files were written. -/
structure Wrote (t : FileTree) (f : Place) (files : List Place) (t' : FileTree) : Prop where
  sound : t'.Sound
  lookup_place : t'.lookup f = some .directory
  file : ∀ q ∈ files, ¬ f <+: q → ∃ content, t'.lookup q = some (.file content)
  outside : ∀ q, ¬ f <+: q → q ∉ files → t'.lookup q = t.lookup q
  given : t.given ≤ t'.given

namespace Wrote

variable {files more : List Place}

theorem refl (hs : t.Sound) (hf : t.lookup f = some .directory) : t.Wrote f [] t :=
  ⟨hs, hf, by simp, fun _ _ _ => rfl, Nat.le_refl _⟩

theorem trans (h : t.Wrote f files t₁) (h' : t₁.Wrote f more t') :
    t.Wrote f (files ++ more) t' := by
  refine ⟨h'.sound, h'.lookup_place, fun q hq hf => ?_, fun q hf hq => ?_,
    h.given.trans h'.given⟩
  · by_cases hmore : q ∈ more
    · exact h'.file q hmore hf
    · rw [h'.outside q hf hmore]
      exact h.file q ((List.mem_append.1 hq).resolve_right hmore) hf
  · rw [List.mem_append, not_or] at hq
    rw [h'.outside q hf hq.2, h.outside q hf hq.1]

theorem congr (h : t.Wrote f files t') (hmem : ∀ q, q ∈ files ↔ q ∈ more) :
    t.Wrote f more t' :=
  ⟨h.sound, h.lookup_place, fun q hq => h.file q ((hmem q).2 hq),
    fun q hf hq => h.outside q hf fun hmore => hq ((hmem q).1 hmore), h.given⟩

theorem of_inside (h : t.Inside f t') : t.Wrote f [] t' :=
  ⟨h.sound, h.lookup_place, by simp, fun q hf _ => h.outside q hf, h.given⟩

theorem inside (h : t.Wrote f [] t') : t.Inside f t' :=
  ⟨h.sound, h.lookup_place, fun q hf => h.outside q hf (by simp), h.given⟩

/-- A file was written in the directory. -/
theorem of_placed_child {content : ByteArray} (hf : t.lookup f = some .directory)
    (h : t.Placed (f ++ [name]) (.file content) t') : t.Wrote f [] t' :=
  of_inside (h.inside_child hf)

/-- A file of the directory was removed. -/
theorem of_drop_child {content : ByteArray} (hs : t.Sound) (hne : f ≠ [])
    (hf : t.lookup f = some .directory) (hfile : t.lookup (f ++ [name]) = some (.file content)) :
    t.Wrote f [] (t.drop (f ++ [name])) := by
  have hroot : (f ++ [name]).isRoot = false := Place.isRoot_append hne
  refine ⟨hs.drop hroot (hs.lookup_append (by simp [hfile]) (by simp)), ?_, by simp,
    fun q hq _ => ?_, Nat.le_refl _⟩
  · rw [lookup_drop hroot, if_neg (by simp), hf]
  · rw [lookup_drop hroot, if_neg]
    rintro rfl
    exact hq (List.prefix_append _ _)

/-- A file was written somewhere. -/
theorem of_placed {content : ByteArray} (hf : t.lookup f = some .directory)
    (h : t.Placed q (.file content) t') : t.Wrote f [q] t' where
  sound := h.sound
  lookup_place := h.lookup_directory hf
  file := by simp [h.lookup_self]
  outside a _ ha := h.lookup_of_ne (by simpa using ha)
  given := h.given

/-- Paths that do not lead through the directory can still be followed. -/
theorem hasFolder (h : t.Wrote f files t') (hne : f ≠ []) (hout : f ∉ p.track)
    (hfiles : ∀ l ∈ p.track, l ∉ files) (hp : t.HasFolder p) : t'.HasFolder p := fun l hl => by
  rw [h.outside l (fun habove => hout (Path.mem_track_of_above hl habove hne)) (hfiles l hl),
    hp l hl]

end Wrote

end TripleStore.FileTree
