import TripleStore.Proofs.Disk.Directories

/-!
# Publishing

Files are written beside their destination and moved there. A directory is staged under a fresh name
(`FileTree.Opened`), and what stands in it then is what stands at the destination after it was
published (`publish_of_vacant`).
-/

namespace TripleStore

/-- The stems of the names under which builders keep what is not finished. -/
def temporaryStems : List String := [".staging-", ".file-", "composite-", "dictionary-", "triples-"]

namespace FileTree

variable {t t' : FileTree} {p : Path} {name : String}

/-! ## Fresh directories -/

/-- The place has a name that is still to be given out to something unfinished. -/
def IsPending (t : FileTree) (l : Place) : Prop :=
  ∃ stem ∈ temporaryStems, ∃ k : Nat, t.given ≤ k ∧ l.getLast? = some (stem ++ toString k)

theorem isPending_append {stem : String} {k : Nat} (hstem : stem ∈ temporaryStems)
    (hk : t.given ≤ k) (l : Place) : t.IsPending (l ++ [stem ++ toString k]) :=
  ⟨stem, hstem, k, hk, List.getLast?_concat⟩

/-- What is still to be given out later was so before. -/
theorem IsPending.mono {l : Place} (h : t'.IsPending l) (hgiven : t.given ≤ t'.given) :
    t.IsPending l := by
  obtain ⟨stem, hstem, k, hk, hlast⟩ := h
  exact ⟨stem, hstem, k, hgiven.trans hk, hlast⟩

/-- The directories of a folder were made where they were missing, and an empty one in it, under a
name that was free and to be given out. -/
structure Opened (t : FileTree) (folder : Path) (name : String) (t' : FileTree) : Prop where
  sound : t'.Sound
  pending : t.IsPending (folder.place ++ [name])
  given : t.given ≤ t'.given
  absent : t.lookup (folder.place ++ [name]) = none
  out : folder.place ++ [name] ∉ folder.track
  lookup : ∀ q, t'.lookup q =
    if q = folder.place ++ [name] ∨ q ∈ folder.track then some .directory else t.lookup q

namespace Opened

variable {folder : Path}

theorem lookup_place (h : t.Opened folder name t') :
    t'.lookup (folder.place ++ [name]) = some .directory := by
  rw [h.lookup, if_pos (.inl rfl)]

/-- Directories stay directories. -/
theorem lookup_directory (h : t.Opened folder name t') {q : Place}
    (hq : t.lookup q = some .directory) : t'.lookup q = some .directory := by
  rw [h.lookup]
  split
  · rfl
  · exact hq

theorem hasFolder (h : t.Opened folder name t') : t'.HasFolder folder := fun l hl => by
  rw [h.lookup, if_pos (.inr hl)]

/-- What was not there is not on the way to it. -/
theorem not_above_of_mem (h : t.Opened folder name t') {l : Place} (hl : l ∈ folder.track) :
    ¬ folder.place ++ [name] <+: l := fun habove =>
  h.out (Path.mem_track_of_above hl habove (by simp))

/-- Nothing stands in a fresh directory. -/
theorem lookup_below (h : t.Opened folder name t') (hs : t.Sound) {q : Place}
    (hq : folder.place ++ [name] <+: q) (hne : q ≠ folder.place ++ [name]) :
    t'.lookup q = none := by
  rw [h.lookup, if_neg, hs.lookup_of_absent h.absent (by simp) hq]
  rintro (rfl | hmem)
  · exact hne rfl
  · exact h.not_above_of_mem hmem hq

end Opened

end FileTree

namespace Disk

open FileTree

variable {t : FileTree} {p : Path} {name : String}

/-- **A fresh directory can be made in every folder that no file is in the way of.** -/
theorem open_of_passable {stem : String} (hs : t.Sound) (hp : t.Passable p)
    (hstem : stem ∈ temporaryStems) :
    ∃ (k : Nat) (t₁ t₂ : FileTree), (makeDirectories p).apply t = (.ok (), t₁) ∧
      t₁.makeFresh p stem .directory = .ok (p.child (stem ++ toString k), t₂) ∧
      t.Opened p (stem ++ toString k) t₂ := by
  obtain ⟨t₁, hmake, hs₁, hpaved⟩ := makeDirectories_of_passable hs hp
  have hgiven : t₁.given = t.given := by
    rw [← given_makeDirectories p t, hmake]
  obtain ⟨k, t₂, hfresh, hk, habsent, hplaced⟩ := hpaved.hasFolder.makeFresh hs₁ stem .directory
  have hpending : t.IsPending (p.place ++ [stem ++ toString k]) :=
    isPending_append hstem (hgiven ▸ hk) _
  refine ⟨k, t₁, t₂, hmake, hfresh, ?_⟩
  generalize stem ++ toString k = name at habsent hplaced hpending ⊢
  have hout : p.place ++ [name] ∉ p.track := fun hmem => by
    rw [hpaved, if_pos hmem] at habsent
    cases habsent
  refine ⟨hplaced.sound, hpending, hgiven ▸ hplaced.given, ?_, hout, fun q => ?_⟩
  · rwa [hpaved, if_neg hout] at habsent
  · rw [hplaced.lookup, hpaved]
    by_cases hq : q = p.place ++ [name] <;> simp [hq]

/-! ## Files -/

/-- **A file that could be written beside its destination ends up there.** -/
theorem replaceFile_of_content {content : Disk ByteArray} {bytes held : ByteArray} {fresh : String}
    {t₁ t₂ : FileTree} (hp : t₂.Names p) (hend : p.ending = .name) (hname : fresh ≠ "..")
    (hfresh : t.makeFresh p.parent ".file-" (.file ByteArray.empty) =
      .ok (p.parent.child fresh, t₁))
    (hcontent : content.apply t₁ = (.ok bytes, t₂)) (hs : t₂.Sound)
    (hheld : t₂.lookup (p.parent.place ++ [fresh]) = some (.file held))
    (hold : t₂.lookup p.place ≠ some .directory) :
    ∃ t', (replaceFile p content).apply t = (.ok (), t') ∧ t'.Sound ∧ t₂.given ≤ t'.given ∧
      ∀ q, t'.lookup q =
        if q = p.place then some (.file bytes)
        else if q = p.parent.place ++ [fresh] then none else t₂.lookup q := by
  have hparent := hp.hasFolder_parent
  have hplace : (p.parent.child fresh).place = p.parent.place ++ [fresh] :=
    Path.place_child _ hname
  have hroot : (p.parent.place ++ [fresh]).isRoot = false :=
    Place.isRoot_append p.parent.place_ne_nil
  -- the file is written under its fresh name
  obtain ⟨t₃, hwrite, hplaced₃⟩ := hparent.write hs hname (by simp [hheld]) bytes
  -- and moved from there
  have hmove : t₃.moveFile (p.parent.child fresh) p =
      .ok ((t₃.drop (p.parent.place ++ [fresh])).put p.place (.file bytes)) := by
    have := (names_child (hplaced₃.hasFolder hparent) hname).moveFile rfl
      (by rw [hplace, hplaced₃.lookup_self]) (hplaced₃.names hp) hend
      (hplaced₃.lookup_ne_directory hold)
    rwa [hplace] at this
  let t₄ := t₃.drop (p.parent.place ++ [fresh])
  have hlookup₄ : ∀ q, t₄.lookup q =
      if q = p.parent.place ++ [fresh] then none else t₃.lookup q := lookup_drop hroot
  have hs₄ : t₄.Sound := hplaced₃.sound.drop hroot
    (hplaced₃.sound.lookup_append (by simp [hplaced₃.lookup_self]) (by simp))
  have hparent₄ : t₄.HasFolder p.parent := (hplaced₃.hasFolder hparent).mono fun q hq => by
    rw [hlookup₄, if_neg, hq]
    rintro rfl
    rw [hplaced₃.lookup_self] at hq
    cases hq
  have hold₄ : t₄.lookup p.place ≠ some .directory := by
    rw [hlookup₄]
    split
    · simp
    · exact hplaced₃.lookup_ne_directory hold
  obtain ⟨name, -, -, hlast⟩ := Path.place_eq_append hp.proper
  rw [hlast] at hold₄ hmove ⊢
  have hplaced := hs₄.placed hparent₄ hold₄ (.file bytes)
  refine ⟨_, ?_, hplaced.sound, hplaced₃.given, fun q => ?_⟩
  · rw [replaceFile, apply_bind_of_ok (apply_change hfresh)]
    refine apply_undoing _ ?_
    rw [apply_bind_of_ok hcontent, apply_bind_of_ok (apply_update hwrite)]
    exact apply_update hmove
  · rw [hplaced.lookup, hlookup₄, hplaced₃.lookup]
    by_cases hq : q = p.parent.place ++ [fresh] <;> simp [hq]

/-- **A file that is known beforehand ends up at its destination.** -/
theorem replaceFile_pure (hs : t.Sound) (hp : t.Names p) (hend : p.ending = .name)
    (hold : t.lookup p.place ≠ some .directory) (bytes : ByteArray) :
    ∃ t', (replaceFile p (pure bytes)).apply t = (.ok (), t') ∧
      t.Placed p.place (.file bytes) t' := by
  obtain ⟨k, t₁, hfresh, -, habsent, hplaced⟩ :=
    hp.hasFolder_parent.makeFresh hs ".file-" (.file ByteArray.empty)
  have hdots := append_toString_ne_dots ".file-" k
  generalize ".file-" ++ toString k = fresh at habsent hfresh hplaced hdots
  obtain ⟨t', hrun, hs', hgiven', hlookup'⟩ := replaceFile_of_content (hplaced.names hp) hend hdots
    hfresh (apply_pure bytes t₁) hplaced.sound hplaced.lookup_self
    (hplaced.lookup_ne_directory hold)
  refine ⟨t', hrun, hs', hold, fun q => ?_, hplaced.given.trans hgiven'⟩
  rw [hlookup', hplaced.lookup]
  by_cases hq : q = p.parent.place ++ [fresh] <;> simp [hq, habsent]

/-- **A file is copied to where no directory stands.** -/
theorem copy_of_names {source : Path} {content : ByteArray} (hs : t.Sound)
    (hsource : t.Names source) (hend : source.ending = .name)
    (hfile : t.lookup source.place = some (.file content)) (hp : t.HasFolder p)
    (hname : name ≠ "..") (hold : t.lookup (p.place ++ [name]) ≠ some .directory)
    (hne : source.place ≠ p.place ++ [name]) :
    ∃ t', (copy source (p.child name)).apply t = (.ok (), t') ∧
      t.Placed (p.place ++ [name]) (.file content) t' := by
  have hread : ∀ {t' : FileTree}, t'.Names source → t'.lookup source.place = some (.file content) →
      t'.read source = .ok content := fun hnames hheld => hnames.read hend hheld
  have hnot : t.isDirectory source = false := by
    rw [isDirectory, hsource.find hfile fun h => by rw [hend] at h; cases h]
  -- the copy is emptied
  obtain ⟨t₁, hwrite₁, hplaced₁⟩ := hp.write hs hname hold ByteArray.empty
  have hfile₁ : t₁.lookup source.place = some (.file content) := by
    rw [hplaced₁.lookup_of_ne hne, hfile]
  -- and filled
  obtain ⟨t₂, hwrite₂, hplaced₂⟩ := (hplaced₁.hasFolder hp).write hplaced₁.sound hname
    (by simp [hplaced₁.lookup_self]) content
  refine ⟨t₂, ?_, hplaced₂.sound, hold, fun q => ?_, hplaced₁.given.trans hplaced₂.given⟩
  · rw [copy, apply_bind_of_ok (apply_get t), hnot, if_neg (by decide)]
    rw [apply_bind_of_ok (apply_look (hread hsource hfile)),
      apply_bind_of_ok (apply_update hwrite₁),
      apply_bind_of_ok (apply_look (hread (hplaced₁.names hsource) hfile₁))]
    exact apply_update hwrite₂
  · rw [hplaced₂.lookup, hplaced₁.lookup]
    split <;> rfl

end Disk

/-! ## Directories -/

namespace FileTree

variable {t t' : FileTree} {p : Path}

/-- A destination that can be reached, where nothing stands, or an empty directory. -/
structure Vacant (t : FileTree) (p : Path) : Prop where
  names : t.Names p
  out : p.place ∉ p.trail
  atPlace : t.lookup p.place = none ∨ t.lookup p.place = some .directory
  below : ∀ q, p.place <+: q → q ≠ p.place → t.lookup q = none

/-! An empty directory at the destination goes before another one is moved there. -/

namespace Vacant

theorem lookup_drop (h : t.Vacant p) (q : Place) :
    (t.drop p.place).lookup q = if q = p.place then none else t.lookup q :=
  FileTree.lookup_drop (Path.isRoot_place h.names.proper) q

theorem drop (h : t.Vacant p) : (t.drop p.place).Vacant p where
  names := ⟨h.names.proper, fun l hl => by
    have hl' : l ≠ p.place := by
      rintro rfl
      exact h.out hl
    rw [h.lookup_drop, if_neg hl']
    exact h.names.leads l hl⟩
  out := h.out
  atPlace := .inl (by rw [h.lookup_drop, if_pos rfl])
  below := fun q hq hne => by
    rw [h.lookup_drop, if_neg hne]
    exact h.below q hq hne

theorem hasFolder_drop (h : t.Vacant p) {source : Path} (hs : t.HasFolder source)
    (hout : p.place ∉ source.track) : (t.drop p.place).HasFolder source := fun l hl => by
  rw [h.lookup_drop, if_neg]
  · exact hs l hl
  · rintro rfl
    exact hout hl

theorem moved_of_drop (h : t.Vacant p) {l : Place} (habove : ¬ l <+: p.place)
    (hm : Moved (t.drop p.place) l p.place t') : Moved t l p.place t' := by
  refine ⟨fun rest => ?_, hm.gone, fun q hl hk => ?_⟩
  · have hrest : l ++ rest ≠ p.place := fun heq => habove ⟨rest, heq⟩
    rw [hm.inside, h.lookup_drop, if_neg hrest]
  · have hq : q ≠ p.place := by
      rintro rfl
      exact hk (List.prefix_refl _)
    rw [hm.others q hl hk, h.lookup_drop, if_neg hq]

end Vacant

end FileTree

namespace Disk

open FileTree

variable {t : FileTree} {target : Destination} {name : String}

/-- **A directory beside a vacant destination is published.** Its path can be followed without
it. -/
theorem publish_of_vacant (hs : t.Sound) (hv : t.Vacant target.path) (hname : name ≠ "..")
    (hdir : t.lookup (target.path.parent.place ++ [name]) = some .directory)
    (hne : target.path.place ≠ target.path.parent.place ++ [name])
    (hout : target.path.parent.place ++ [name] ∉ target.path.parent.track) :
    ∃ t', (publish (target.path.parent.child name) target).apply t = (.ok (), t') ∧ t'.Sound ∧
      Moved t (target.path.parent.place ++ [name]) target.path.place t' := by
  have hnames := hv.names
  have hparent := hnames.hasFolder_parent
  have hplace : (target.path.parent.child name).place = target.path.parent.place ++ [name] :=
    Path.place_child _ hname
  have hsource : t.HasFolder (target.path.parent.child name) :=
    (hasFolder_child hname).2 ⟨hparent, hdir⟩
  have hroot : (target.path.parent.child name).place.isRoot = false := by
    rw [hplace]
    exact Place.isRoot_append target.path.parent.place_ne_nil
  obtain ⟨last, -, -, hlast⟩ := Path.place_eq_append hnames.proper
  have htrack : target.path.place ∉ target.path.parent.track := by
    rw [Path.track_parent (Path.names_ne_nil_of_isProper hnames.proper)]
    exact hv.out
  have hsound : ∀ t', Moved t (target.path.parent.place ++ [name]) target.path.place t' →
      t'.Sound := fun t' hm => by
    rw [hlast] at hm
    exact hm.sound hs (by simp) hparent.lookup_place (Place.not_append_above _ _)
  -- the directory that the finished one was moved to can be opened afterwards
  have hopen : ∀ t', Moved t (target.path.parent.place ++ [name]) target.path.place t' →
      (requireFolder target.path.parent).apply t' = (.ok (), t') := fun t' hm =>
    requireFolder_of_hasFolder
      (hm.hasFolder (by simp) target.path.place_ne_nil hout htrack hparent)
  rcases hv.atPlace with hat | hat
  · have hfind := hnames.find_of_none hat
    have hvacant : t.isVacant target.path = false := by rw [isVacant, hfind]
    have hcontains : t.contains target.path = false := by rw [contains, hfind]; rfl
    obtain ⟨t', hmove, hmoved⟩ := hnames.moveDirectory hsource hroot (.inl hat) hv.below
    rw [hplace] at hmoved
    refine ⟨t', ?_, hsound t' hmoved, hmoved⟩
    rw [publish, apply_bind_of_ok (apply_get t)]
    simp only [hvacant, hcontains, Bool.false_eq_true, if_false]
    rw [apply_bind_of_ok (requireFolder_of_hasFolder hsource),
      apply_bind_of_ok (apply_update hmove)]
    exact hopen t' hmoved
  · have hempty : ∀ n, t.lookup (target.path.place ++ [n]) = none := fun n =>
      hv.below _ (List.prefix_append _ _) (by simp)
    have hvacant := (hnames.isVacant hat).2 hempty
    have hsourceTrack : target.path.place ∉ (target.path.parent.child name).track := by
      rw [Path.track_child _ hname, List.mem_append, List.mem_singleton]
      exact fun hmem => hmem.elim htrack hne
    have habove : ¬ target.path.parent.place ++ [name] <+: target.path.place := fun h => by
      rw [hlast] at h hne
      exact hne (h.eq_of_length (by simp)).symm
    have hdrop := hv.hasFolder_drop hsource hsourceTrack
    obtain ⟨t', hmove, hmoved⟩ := hv.drop.names.moveDirectory hdrop
      hroot (.inl (by rw [hv.lookup_drop, if_pos rfl])) hv.drop.below
    rw [hplace] at hmoved
    have hmoved' := hv.moved_of_drop habove hmoved
    refine ⟨t', ?_, hsound t' hmoved', hmoved'⟩
    rw [publish, apply_bind_of_ok (apply_get t)]
    simp only [hvacant, if_true]
    rw [apply_bind_of_ok (apply_update (hnames.removeDirectory hat hempty)),
      apply_bind_of_ok (requireFolder_of_hasFolder hdrop), apply_bind_of_ok (apply_update hmove)]
    exact hopen t' hmoved'

end Disk

end TripleStore
