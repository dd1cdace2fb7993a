import TripleStore.Proofs.Disk.Effect

/-!
# Outcomes of making, replacing and publishing

Making directories, replacing a file, publishing and staging are told for every outcome: each either
did what it is for or left the tree as it was, but for directories on the way. None of the paths may
lead through its own destination; through such a path nothing is published at all
(`Disk.isDirect_of_staged`).
-/

namespace TripleStore

open FileTree

namespace Disk

variable {t t' : FileTree} {p : Path} {r : Result Unit}

/-! ## Making directories -/

theorem made_ensureDirectory (hs : t.Sound) (hrun : (ensureDirectory p).apply t = (r, t')) :
    t.Made [p.place] t' := by
  cases r with
  | error e =>
    obtain rfl := eq_of_update_error hrun
    exact Made.refl hs
  | ok u =>
    have hmake := apply_update_eq_ok.1 hrun
    split at hmake
    · exact Except.ok.inj hmake ▸ Made.refl hs
    obtain ⟨hnone, hplaced⟩ := of_makeDirectory hs hmake
    refine ⟨hplaced.sound, fun q => ?_⟩
    by_cases hq : q = p.place
    · exact .inr ⟨by simp [hq], hq ▸ hnone, hq ▸ hplaced.lookup_self⟩
    · exact .inl (hplaced.lookup_of_ne hq)

/-- **Making a directory makes directories on its track only**, even if it fails. -/
theorem made_makeDirectories (hs : t.Sound) (hrun : (makeDirectories p).apply t = (r, t')) :
    t.Made p.track t' := by
  induction hn : p.names.length using Nat.strongRecOn generalizing p r t' with
  | ind n ih =>
    have hplace : ∀ q ∈ [p.place], q ∈ p.track := by simp [p.place_mem_track]
    rw [makeDirectories] at hrun
    split at hrun
    · obtain ⟨-, rfl⟩ := Prod.mk.inj hrun
      exact Made.refl hs
    rename_i hnames
    rw [apply_bind_of_ok (apply_get t)] at hrun
    have hparent : ∀ {r₁ t₁}, (makeDirectories p.parent).apply t = (r₁, t₁) →
        t.Made p.trail t₁ := fun hrun => by
      have := ih _ (hn ▸ p.length_parent hnames) hrun rfl
      rwa [Path.track_parent hnames] at this
    split at hrun
    · rcases bind_cases hrun with ⟨e, -, hfail⟩ | ⟨_, t₁, hfirst, hlast⟩
      · exact (hparent hfail).mono fun q hq _ => Path.mem_track_of_mem_trail hq
      · exact (hparent hfirst).trans (made_ensureDirectory (hparent hfirst).sound hlast)
    · exact (made_ensureDirectory hs hrun).mono fun q hq _ => hplace q hq

/-- Making the directories above a path makes directories on the way to it only. -/
theorem made_makeParents (hs : t.Sound) (hrun : (makeParents p).apply t = (r, t')) :
    t.Made p.trail t' :=
  (made_makeDirectories hs hrun).mono fun _ => mem_trail_of_absent

/-! ## Replacing files -/

end Disk

namespace FileTree

variable {t u u' : FileTree} {p : Path} {f : Place} {fresh : String} {bytes : ByteArray}

/-- A file under a fresh name beside a destination is the only change beside a directory. -/
structure Replacing (t : FileTree) (f : Place) (p : Path) (fresh : String) (u : FileTree) :
    Prop where
  hasFolder : t.HasFolder p.parent
  absent : t.lookup (p.parent.place ++ [fresh]) = none
  dots : fresh ≠ ".."
  place_ne_nil : f ≠ []
  out : f ∉ p.parent.track
  wrote : t.Wrote f [p.parent.place ++ [fresh]] u

namespace Replacing

/-- What is in the folder is not below the directory, unless it is the directory. -/
theorem eq_of_above (h : t.Replacing f p fresh u) {name : String}
    (habove : f <+: p.parent.place ++ [name]) : f = p.parent.place ++ [name] :=
  (List.prefix_concat_iff.1 habove).resolve_right fun habove =>
    h.out (Path.mem_track_of_above p.parent.place_mem_track habove h.place_ne_nil)

theorem hasFolder_after (h : t.Replacing f p fresh u) : u.HasFolder p.parent :=
  h.wrote.hasFolder h.place_ne_nil h.out (fun l hl hmem => by
    have hdir := h.hasFolder l hl
    rw [List.mem_singleton.1 hmem, h.absent] at hdir
    cases hdir) h.hasFolder

theorem file (h : t.Replacing f p fresh u) (hf : t.lookup f = some .directory) :
    ∃ content, u.lookup (p.parent.place ++ [fresh]) = some (.file content) :=
  h.wrote.file _ (by simp) fun habove => by
    rw [h.eq_of_above habove, h.absent] at hf
    cases hf

/-- Changes below the directory may come in between. -/
theorem of_wrote (h : t.Replacing f p fresh u) (hw : u.Wrote f [] u') : t.Replacing f p fresh u' :=
  { h with wrote := h.wrote.trans hw }

/-- The file may be written again. -/
theorem of_write (h : t.Replacing f p fresh u)
    (hwrite : u.write (p.parent.child fresh) bytes = .ok u') :
    t.Replacing f p fresh u' ∧ u'.lookup (p.parent.place ++ [fresh]) = some (.file bytes) := by
  have hplaced := (of_write_child h.wrote.sound h.dots hwrite).2
  exact ⟨{ h with wrote :=
    (h.wrote.trans (Wrote.of_placed h.wrote.lookup_place hplaced)).congr (by simp) },
    hplaced.lookup_self⟩

/-- **Without the fresh file it is as if it had never been.** -/
theorem drop (h : t.Replacing f p fresh u) (hf : t.lookup f = some .directory) :
    t.Wrote f [] (u.drop (p.parent.place ++ [fresh])) := by
  have hroot : (p.parent.place ++ [fresh]).isRoot = false :=
    Place.isRoot_append p.parent.place_ne_nil
  obtain ⟨content, hfile⟩ := h.file hf
  refine ⟨h.wrote.sound.drop hroot (h.wrote.sound.lookup_append (by simp [hfile]) (by simp)), ?_,
    by simp, fun q hq _ => ?_, h.wrote.given⟩
  · rw [lookup_drop hroot, if_neg, h.wrote.lookup_place]
    intro heq
    rw [heq, h.absent] at hf
    cases hf
  · rw [lookup_drop hroot]
    split
    · rw [‹q = _›, h.absent]
    · exact h.wrote.outside q hq (by simpa using ‹q ≠ _›)

/-- The fresh file can be removed. -/
theorem removeFile (h : t.Replacing f p fresh u) (hf : t.lookup f = some .directory) :
    u.removeFile (p.parent.child fresh) = .ok (u.drop (p.parent.place ++ [fresh])) := by
  have hplace := Path.place_child p.parent h.dots
  obtain ⟨content, hfile⟩ := h.file hf
  rw [(names_child h.hasFolder_after h.dots).removeFile rfl (hplace ▸ hfile), hplace]

/-- **The fresh file is moved to a destination where no directory was.** -/
theorem of_moveFile (h : t.Replacing f p fresh u) (hf : t.lookup f = some .directory)
    (hfile : u.lookup (p.parent.place ++ [fresh]) = some (.file bytes))
    (hmove : u.moveFile (p.parent.child fresh) p = .ok u') :
    t.Names p ∧ t.lookup p.place ≠ some .directory ∧ t.Wrote f [p.place] u' ∧
      u'.lookup p.place = some (.file bytes) := by
  have hplace := Path.place_child p.parent h.dots
  obtain ⟨hnames, hend, hold, -⟩ := FileTree.of_moveFile hmove
  have hmoved := (names_child h.hasFolder_after h.dots).moveFile rfl (hplace ▸ hfile) hnames hend
    hold
  rw [hplace] at hmoved
  obtain rfl := Except.ok.inj (hmove.symm.trans hmoved)
  have hdropped := h.drop hf
  have hparent : (u.drop (p.parent.place ++ [fresh])).HasFolder p.parent :=
    hdropped.hasFolder h.place_ne_nil h.out (by simp) h.hasFolder
  have hold' : (u.drop (p.parent.place ++ [fresh])).lookup p.place ≠ some .directory := by
    rw [lookup_drop (Place.isRoot_append p.parent.place_ne_nil)]
    split
    · simp
    · exact hold
  obtain ⟨last, -, -, hlast⟩ := Path.place_eq_append hnames.proper
  have hplaced : (u.drop (p.parent.place ++ [fresh])).Placed p.place (.file bytes)
      ((u.drop (p.parent.place ++ [fresh])).put p.place (.file bytes)) := by
    rw [hlast] at hold' ⊢
    exact hdropped.sound.placed hparent hold' _
  have hwrote := hdropped.trans (Wrote.of_placed hdropped.lookup_place hplaced)
  refine ⟨⟨hnames.proper, ?_⟩, fun hdir => hold' ?_, hwrote, hplaced.lookup_self⟩
  · exact (hasFolder_parent (Path.names_ne_nil_of_isProper hnames.proper)).1 h.hasFolder
  · by_cases habove : f <+: p.place
    · rw [hlast] at habove
      rw [hlast, ← h.eq_of_above habove, hdropped.lookup_place]
    · rw [hdropped.outside _ habove (by simp), hdir]

end Replacing

end FileTree

namespace Disk

variable {t t' : FileTree} {p : Path} {f : Place} {r : Result Unit} {content : Disk ByteArray}
  {Q : ByteArray → Prop}

/-- **Replacing a file replaces it or leaves it as it was.** Its content is made by an operation
that changes what is below a directory only. -/
theorem replaceFile_cases (hcontent : Writes f [] Q content) (hs : t.Sound)
    (hf : t.lookup f = some .directory) (hne : f ≠ []) (hout : f ∉ p.parent.track)
    (hrun : (replaceFile p content).apply t = (r, t')) :
    (∃ e, r = .error e) ∧ t.Wrote f [] t' ∨
    r = .ok () ∧ t.Names p ∧ t.lookup p.place ≠ some .directory ∧ t.Wrote f [p.place] t' ∧
      ∃ bytes, Q bytes ∧ t'.lookup p.place = some (.file bytes) := by
  rw [replaceFile] at hrun
  rcases bind_cases hrun with ⟨e, rfl, hfail⟩ | ⟨q, t₁, hfirst, hbody⟩
  · obtain rfl := eq_of_change_error hfail
    exact .inl ⟨⟨e, rfl⟩, Wrote.refl hs hf⟩
  obtain ⟨k, rfl, hparent, -, habsent, hplaced⟩ := of_makeFresh hs (apply_change_eq_ok.1 hfirst)
  have h₁ : t.Replacing f p (".file-" ++ toString k) t₁ :=
    ⟨hparent, habsent, append_toString_ne_dots ".file-" k, hne, hout, Wrote.of_placed hf hplaced⟩
  have hmade : ∀ {r₂ t₂}, content.apply t₁ = (r₂, t₂) →
      t.Replacing f p (".file-" ++ toString k) t₂ := fun hrun =>
    h₁.of_wrote (hcontent.wrote h₁.wrote.sound h₁.wrote.lookup_place hrun)
  rcases undoing_cases hbody with ⟨_, rfl, hdone⟩ | ⟨e, t₄, rfl, hfail, rfl⟩
  · obtain ⟨bytes, t₂, hbytes, hrest⟩ := apply_bind_eq_ok.1 hdone
    obtain ⟨_, t₃, hwrite, hmove⟩ := apply_bind_eq_ok.1 hrest
    obtain ⟨h₃, hfile⟩ := (hmade hbytes).of_write (apply_update_eq_ok.1 hwrite)
    obtain ⟨hnames, hold, hwrote, hfile'⟩ := h₃.of_moveFile hf hfile (apply_update_eq_ok.1 hmove)
    have hQ := ((hcontent t₁ _ _ h₁.wrote.sound h₁.wrote.lookup_place hbytes).2 bytes rfl).2
    exact .inr ⟨rfl, hnames, hold, hwrote, bytes, hQ, hfile'⟩
  · have h₄ : t.Replacing f p (".file-" ++ toString k) t₄ := by
      rcases bind_cases hfail with ⟨_, -, hbytes⟩ | ⟨bytes, t₂, hbytes, hrest⟩
      · exact hmade hbytes
      rcases bind_cases hrest with ⟨_, -, hwrite⟩ | ⟨_, t₃, hwrite, hmove⟩
      · obtain rfl := eq_of_update_error hwrite
        exact hmade hbytes
      · obtain rfl := eq_of_update_error hmove
        exact ((hmade hbytes).of_write (apply_update_eq_ok.1 hwrite)).1
    rw [apply_update (h₄.removeFile hf)]
    exact .inl ⟨⟨e, rfl⟩, h₄.drop hf⟩

theorem Writes.replaceFile (hcontent : Writes f [] (fun _ => True) content) (hne : f ≠ [])
    (hout : f ∉ p.parent.track) :
    Writes f [p.place] (fun _ => True) (Disk.replaceFile p content) := by
  intro t r t' hs hf hrun
  rcases replaceFile_cases hcontent hs hf hne hout hrun with
    ⟨⟨e, rfl⟩, hwrote⟩ | ⟨rfl, -, -, hwrote, -⟩
  · exact ⟨⟨[], by simp, hwrote⟩, fun _ h => nomatch h⟩
  · exact ⟨⟨_, List.Subset.refl _, hwrote⟩, fun _ _ => ⟨hwrote, trivial⟩⟩

/-- **What replaces a file in the directory is below it**, whatever becomes of it. -/
theorem Writes.replaceFile_inside (hcontent : Writes p.parent.place [] (fun _ => True) content) :
    Writes p.parent.place [] (fun _ => True) (Disk.replaceFile p content) := by
  have hfresh : Writes p.parent.place []
      (fun q => ∃ k : Nat, q = p.parent.child (".file-" ++ toString k))
      (change (·.makeFresh p.parent ".file-" (.file ByteArray.empty))) := by
    intro t r t' hs hf hrun
    cases r with
    | error e =>
      obtain rfl := eq_of_change_error hrun
      exact ⟨⟨[], List.Subset.refl [], Wrote.refl hs hf⟩, fun _ h => nomatch h⟩
    | ok q =>
      obtain ⟨k, rfl, -, -, -, hplaced⟩ := of_makeFresh hs (apply_change_eq_ok.1 hrun)
      have hwrote := Wrote.of_placed_child hf hplaced
      refine ⟨⟨[], List.Subset.refl [], hwrote⟩, fun a ha => ⟨hwrote, k, ?_⟩⟩
      exact (Except.ok.inj ha).symm
  refine .bind hfresh fun q hq => ?_
  obtain ⟨k, rfl⟩ := hq
  have hdots := append_toString_ne_dots ".file-" k
  exact .undoing (.bind hcontent fun bytes _ => .bind (.write_child hdots bytes) fun _ _ =>
    .moveFile_child hdots) (.removeFile_child hdots)

/-- **A file that was replaced is read at its destination**, whatever its content was made with. -/
theorem load_of_replaceFile (hrun : (replaceFile p content).apply t = (.ok (), t')) :
    ∃ t₁ t₂ bytes, content.apply t₁ = (.ok bytes, t₂) ∧ t'.load p = .ok bytes := by
  obtain ⟨q, t₁, -, hbody⟩ := apply_bind_eq_ok.1 hrun
  rcases undoing_cases hbody with ⟨_, -, hdone⟩ | ⟨e, _, h, -⟩
  · obtain ⟨bytes, t₂, hbytes, hrest⟩ := apply_bind_eq_ok.1 hdone
    obtain ⟨_, t₃, hwrite, hmove⟩ := apply_bind_eq_ok.1 hrest
    exact ⟨t₁, t₂, bytes, hbytes, load_of_write_of_moveFile (apply_update_eq_ok.1 hwrite)
      (apply_update_eq_ok.1 hmove)⟩
  · cases h

/-! ## Publishing -/

variable {target : Destination} {name : String}

/-- A destination that is removed before another directory is moved there was vacant. -/
theorem vacant_of_removeDirectory (hs : t.Sound) (hout : p.place ∉ p.trail)
    (h : t.removeDirectory p = .ok t') : t.Vacant p := by
  obtain ⟨hnames, hdir, hempty⟩ := of_removeDirectory h
  refine ⟨hnames, hout, .inr hdir, fun q hq hne => ?_⟩
  obtain ⟨rest, rfl⟩ := hq
  cases rest with
  | nil => simp at hne
  | cons inner rest =>
    have happend : p.place ++ inner :: rest = p.place ++ [inner] ++ rest := by simp
    rw [happend]
    exact hs.lookup_of_absent (hempty inner) (by simp) (List.prefix_append _ _)

theorem vacant_of_absent (hs : t.Sound) (hnames : t.Names p) (hout : p.place ∉ p.trail)
    (hnone : t.lookup p.place = none) : t.Vacant p :=
  ⟨hnames, hout, .inl hnone, fun _ hq _ => hs.lookup_of_absent hnone p.place_ne_nil hq⟩

/-- **A finished directory is published at a vacant destination or nothing changes.** -/
theorem publish_cases (hs : t.Sound) (hout : target.path.place ∉ target.path.trail)
    (hname : name ≠ "..") (hsource : t.HasFolder (target.path.parent.child name))
    (hsourceOut : target.path.parent.place ++ [name] ∉ target.path.parent.track)
    (hfull : ∃ inner, t.lookup (target.path.parent.place ++ [name] ++ [inner]) ≠ none)
    (hrun : (publish (target.path.parent.child name) target).apply t = (r, t')) :
    (∃ e, r = .error e) ∧ t' = t ∨
    r = .ok () ∧ t.Vacant target.path ∧ target.path.place ≠ target.path.parent.place ++ [name] ∧
      t'.Sound ∧ Moved t (target.path.parent.place ++ [name]) target.path.place t' := by
  have hdir := hsource.lookup_place
  rw [Path.place_child _ hname] at hdir
  -- at a vacant destination publishing succeeds
  have hpublish : t.Vacant target.path →
      target.path.place ≠ target.path.parent.place ++ [name] →
      r = .ok () ∧ t.Vacant target.path ∧ target.path.place ≠ target.path.parent.place ++ [name] ∧
        t'.Sound ∧ Moved t (target.path.parent.place ++ [name]) target.path.place t' := by
    intro hv hne
    obtain ⟨u, hu, hs', hmoved⟩ := publish_of_vacant hs hv hname hdir hne hsourceOut
    obtain ⟨rfl, rfl⟩ := Prod.mk.inj (hrun.symm.trans hu)
    exact ⟨rfl, hv, hne, hs', hmoved⟩
  have hcases := hrun
  rw [publish, apply_bind_of_ok (apply_get t)] at hcases
  split at hcases
  · rcases bind_cases hcases with ⟨e, rfl, hfail⟩ | ⟨_, t₁, hremove, -⟩
    · exact .inl ⟨⟨e, rfl⟩, eq_of_update_error hfail⟩
    · have hremove := apply_update_eq_ok.1 hremove
      refine .inr (hpublish (vacant_of_removeDirectory hs hout hremove) fun heq => ?_)
      obtain ⟨inner, hinner⟩ := hfull
      exact hinner (heq ▸ (of_removeDirectory hremove).2.2 inner)
  · split at hcases
    · obtain ⟨rfl, rfl⟩ := Prod.mk.inj hcases
      exact .inl ⟨⟨_, rfl⟩, rfl⟩
    · rename_i hvacant hcontains
      rw [apply_bind_of_ok (requireFolder_of_hasFolder hsource)] at hcases
      rcases bind_cases hcases with ⟨e, rfl, hfail⟩ | ⟨_, t₁, hmove, -⟩
      · exact .inl ⟨⟨e, rfl⟩, eq_of_update_error hfail⟩
      · obtain ⟨-, hnames, hnone | ⟨hplace, hempty⟩⟩ :=
          of_moveDirectory (apply_update_eq_ok.1 hmove)
        · refine .inr (hpublish (vacant_of_absent hs hnames hout hnone) fun heq => ?_)
          rw [heq, hdir] at hnone
          cases hnone
        · exact absurd ((hnames.isVacant hplace).2 hempty) hvacant

/-- **Nothing is published to a directory that something stands in.** -/
theorem publish_of_full {source : Path} {inner : String}
    (hfind : t.find target.path = .ok (target.path.place, .directory))
    (hfull : t.lookup (target.path.place ++ [inner]) ≠ none) :
    (publish source target).apply t = (.error (.destinationExists target.text), t) := by
  have hcontains : t.contains target.path = true := by
    rw [contains, hfind]
    rfl
  have hvacant : ¬ t.isVacant target.path = true := by
    rw [isVacant, hfind]
    exact fun hempty => hfull ((isEmpty_childNames target.path.place_ne_nil).1 hempty inner)
  rw [publish, apply_bind_of_ok (apply_get t), if_neg hvacant, if_pos hcontains]
  rfl

/-- **Only a destination that is named directly is published to.** What is published stands beside
it, so a path through the destination is the way to both. -/
theorem isDirect_of_publish {u : Unit}
    (hrun : (publish (target.path.parent.child name) target).apply t = (.ok u, t')) :
    target.path.IsDirect := by
  have hway : ∀ {t₁ t₂ : FileTree}, (update (·.moveDirectory (target.path.parent.child name)
      target.path)).apply t₁ = (.ok (), t₂) → t₁.Names target.path ∧
        (target.path.place ∈ target.path.trail →
          t₁.lookup target.path.place = some .directory) := fun hmove => by
    obtain ⟨hsource, hnames, -⟩ := of_moveDirectory (apply_update_eq_ok.1 hmove)
    refine ⟨hnames, fun hmem => hsource _ (Path.mem_track_of_mem_trail ?_)⟩
    rw [Path.trail_child, Path.track_parent (Path.names_ne_nil_of_isProper hnames.proper)]
    exact hmem
  rw [publish, apply_bind_of_ok (apply_get t)] at hrun
  split at hrun
  · obtain ⟨_, t₁, hremove, hrest⟩ := apply_bind_eq_ok.1 hrun
    obtain ⟨_, t₂, hopen, hrest⟩ := apply_bind_eq_ok.1 hrest
    obtain ⟨_, t₃, hmove, -⟩ := apply_bind_eq_ok.1 hrest
    obtain rfl := (Reads.requireFolder _).eq hopen
    obtain ⟨hnames, hdir, hempty⟩ := of_removeDirectory (apply_update_eq_ok.1 hremove)
    refine ⟨hnames.proper, fun hmem => ?_⟩
    -- the destination was on the way, and is gone
    have hgone := (hway hmove).2 hmem
    rw [apply_update (hnames.removeDirectory hdir hempty)] at hremove
    obtain ⟨-, rfl⟩ := Prod.mk.inj hremove
    rw [lookup_drop (Path.isRoot_place hnames.proper), if_pos rfl] at hgone
    cases hgone
  · split at hrun
    · cases hrun
    · rename_i hcontains
      obtain ⟨_, t₂, hopen, hrest⟩ := apply_bind_eq_ok.1 hrun
      obtain ⟨_, t₃, hmove, -⟩ := apply_bind_eq_ok.1 hrest
      obtain rfl := (Reads.requireFolder _).eq hopen
      obtain ⟨hnames, hdir⟩ := hway hmove
      refine ⟨hnames.proper, fun hmem => hcontains ?_⟩
      rw [contains, hnames.find (hdir hmem) fun _ => rfl]
      rfl

/-! ## Staging -/

/-- **What is staged is published only at a destination that is named directly.** -/
theorem isDirect_of_staged {α : Type} {a : α} {fill : Destination → Disk α} (hs : t.Sound)
    (hrun : (staged target fill).apply t = (.ok a, t')) : target.path.IsDirect := by
  obtain ⟨_, t₀, hparents, hrest⟩ := apply_bind_eq_ok.1 hrun
  obtain ⟨p, t₁, hfresh, hbody⟩ := apply_bind_eq_ok.1 hrest
  obtain ⟨k, rfl, -⟩ :=
    of_makeFresh (made_makeParents hs hparents).sound (apply_change_eq_ok.1 hfresh)
  rcases undoing_cases hbody with ⟨_, -, hdone⟩ | ⟨_, _, h, -⟩
  · obtain ⟨_, t₂, -, hrest⟩ := apply_bind_eq_ok.1 hdone
    obtain ⟨_, t₃, hpublish, -⟩ := apply_bind_eq_ok.1 hrest
    exact isDirect_of_publish hpublish
  · cases h

/-- A directory was staged beside a destination, and filled with some outcome. -/
structure Staging {α : Type} (t : FileTree) (target : Destination) (fill : Destination → Disk α)
    (name : String) (t₁ : FileTree) (r : Result α) (t₂ : FileTree) : Prop where
  dots : name ≠ ".."
  opened : t.Opened target.path.parent name t₁
  noFile : ∀ l ∈ target.path.parent.track, ∀ content, t.lookup l ≠ some (.file content)
  run : (fill ⟨target.path.parent.child name, target.text⟩).apply t₁ = (r, t₂)

/-- The staged directory can be removed as long as it can be reached. -/
theorem Staging.removeAll {α : Type} {fill : Destination → Disk α} {t₁ t₂ : FileTree} {r : Result α}
    (h : Staging t target fill name t₁ r t₂) (hs : t₂.Sound)
    (hfolder : t₂.HasFolder (target.path.parent.child name)) :
    ∃ u, (Disk.removeAll (target.path.parent.child name)).apply t₂ = (.ok (), u) ∧ u.Sound ∧
      ∀ q, u.lookup q =
        if target.path.parent.place ++ [name] <+: q then none else t₂.lookup q := by
  have hplace := Path.place_child target.path.parent h.dots
  obtain ⟨hparent, hdir⟩ := (hasFolder_child h.dots).1 hfolder
  obtain ⟨u, hu, hlookup⟩ := removeAll_of_names (names_child hparent h.dots) (hplace ▸ hdir)
    (by rw [hplace, Path.trail_child]; exact h.opened.out)
  rw [hplace] at hlookup
  exact ⟨u, hu, hs.of_pruned hlookup, hlookup⟩

/-- **Staging comes to nothing or publishes what it was filled with.** Whatever becomes of filling,
the directory can still be reached, and something is in it in the end. -/
theorem staged_cases {α : Type} {fill : Destination → Disk α} {r : Result α} (hs : t.Sound)
    (hout : target.path.place ∉ target.path.trail)
    (hfill : ∀ name t₁ r₂ t₂, Staging t target fill name t₁ r₂ t₂ → t₂.Sound ∧
      t₂.HasFolder (target.path.parent.child name) ∧ ((∃ a, r₂ = .ok a) →
        ∃ inner, t₂.lookup (target.path.parent.place ++ [name] ++ [inner]) ≠ none))
    (hrun : (staged target fill).apply t = (r, t')) :
    (∃ e, r = .error e) ∧ t.Made target.path.trail t' ∨
    ∃ name t₁ r₂ t₂, Staging t target fill name t₁ r₂ t₂ ∧ t'.Sound ∧
      ((∃ e, r = .error e) ∧
        (∀ q, t'.lookup q =
          if target.path.parent.place ++ [name] <+: q then none else t₂.lookup q) ∨
      (∃ a, r = .ok a) ∧ r₂ = r ∧ t₂.Vacant target.path ∧
        target.path.place ≠ target.path.parent.place ++ [name] ∧
        Moved t₂ (target.path.parent.place ++ [name]) target.path.place t') := by
  rw [staged] at hrun
  rcases bind_cases hrun with ⟨e, rfl, hfail⟩ | ⟨_, t₀, hparents, hrest⟩
  · exact .inl ⟨⟨e, rfl⟩, made_makeParents hs hfail⟩
  have hmade := made_makeDirectories hs hparents
  have hgiven : t₀.given = t.given := by
    rw [← given_makeDirectories target.path.parent t, ← makeParents, hparents]
  rcases bind_cases hrest with ⟨e, rfl, hfail⟩ | ⟨p, t₁, hfirst, hbody⟩
  · obtain rfl := eq_of_change_error hfail
    exact .inl ⟨⟨e, rfl⟩, hmade.mono fun _ => mem_trail_of_absent⟩
  obtain ⟨k, rfl, hparent, hk, habsent, hplaced⟩ :=
    of_makeFresh hmade.sound (apply_change_eq_ok.1 hfirst)
  have hdots := append_toString_ne_dots ".staging-" k
  have hpending := isPending_append (show ".staging-" ∈ temporaryStems by decide) (hgiven ▸ hk)
    target.path.parent.place
  have ho := hmade.opened hparent hpending hgiven habsent hplaced
  have hstaging : ∀ {r₂ t₂}, (fill ⟨target.path.parent.child (".staging-" ++ toString k),
      target.text⟩).apply t₁ = (r₂, t₂) →
      Staging t target fill (".staging-" ++ toString k) t₁ r₂ t₂ := fun hrun =>
    ⟨hdots, ho, hmade.noFile hparent, hrun⟩
  generalize ".staging-" ++ toString k = name at *
  refine .inr ?_
  rcases undoing_cases hbody with ⟨a, rfl, hdone⟩ | ⟨e, t₃, rfl, hfail, rfl⟩
  · obtain ⟨b, t₂, hfilled, hrest⟩ := apply_bind_eq_ok.1 hdone
    obtain ⟨_, t₃, hpublish, hlast⟩ := apply_bind_eq_ok.1 hrest
    obtain ⟨rfl, rfl⟩ : b = a ∧ t₃ = t' := by simpa using hlast
    obtain ⟨hs₂, hfolder, hfull⟩ := hfill _ _ _ _ (hstaging hfilled)
    rcases publish_cases hs₂ hout hdots hfolder ho.out (hfull ⟨b, rfl⟩) hpublish with
      ⟨⟨_, h⟩, -⟩ | ⟨-, hv, hne, hs', hmoved⟩
    · cases h
    · exact ⟨name, t₁, _, t₂, hstaging hfilled, hs', .inr ⟨⟨b, rfl⟩, rfl, hv, hne, hmoved⟩⟩
  · obtain ⟨r₂, t₂, hfilled, rfl⟩ : ∃ r₂ t₂, (fill ⟨target.path.parent.child name,
        target.text⟩).apply t₁ = (r₂, t₂) ∧ t₃ = t₂ := by
      rcases bind_cases hfail with ⟨_, -, hfilled⟩ | ⟨a, t₂, hfilled, hrest⟩
      · exact ⟨_, _, hfilled, rfl⟩
      · refine ⟨_, _, hfilled, ?_⟩
        obtain ⟨hs₂, hfolder, hfull⟩ := hfill _ _ _ _ (hstaging hfilled)
        rcases bind_cases hrest with ⟨_, -, hpublish⟩ | ⟨_, _, -, hlast⟩
        · rcases publish_cases hs₂ hout hdots hfolder ho.out (hfull ⟨a, rfl⟩) hpublish with
            ⟨-, rfl⟩ | ⟨h, -⟩
          · rfl
          · cases h
        · cases hlast
    obtain ⟨hs₂, hfolder, -⟩ := hfill _ _ _ _ (hstaging hfilled)
    obtain ⟨u, hu, hs', hlookup⟩ := (hstaging hfilled).removeAll hs₂ hfolder
    rw [hu]
    exact ⟨name, t₁, r₂, t₃, hstaging hfilled, hs', .inl ⟨⟨e, rfl⟩, hlookup⟩⟩

end Disk

end TripleStore
