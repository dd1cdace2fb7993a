import TripleStore.Proofs.Publication

/-!
# Builders are confined

A builder works in a private directory and publishes at a destination. Seen without that directory,
the last step of a builder is all or nothing (`Workspace.allOrNothing_consume`) if what it does at
the destination is (`Confined`): writing a file or staging files.
-/

namespace TripleStore

namespace FileTree

variable {t u t' : FileTree} {f k q : Place} {folder : Path} {name : String}

/-! ## Without a private directory -/

theorem Sound.prune (h : t.Sound) (hroot : f.isRoot = false) (hne : f ≠ []) : (t.prune f).Sound :=
  h.of_pruned (lookup_prune hroot hne)

theorem lookup_prune_of_not_above (hroot : f.isRoot = false) (hne : f ≠ []) (hq : ¬ f <+: q) :
    (t.prune f).lookup q = t.lookup q := by
  rw [lookup_prune hroot hne, if_neg hq]

theorem contentsAt_prune (hroot : f.isRoot = false) (hne : f ≠ []) (hf : ¬ f <+: k)
    (hk : ¬ k <+: f) : (t.prune f).contentsAt k = t.contentsAt k :=
  contentsAt_eq fun _ hq => lookup_prune_of_not_above hroot hne fun habove =>
    (List.prefix_or_prefix_of_prefix habove hq).elim hf hk

theorem Made.prune {places : List Place} (h : t.Made places t') (hroot : f.isRoot = false)
    (hne : f ≠ []) : (t.prune f).Made places (t'.prune f) := by
  refine ⟨h.sound.prune hroot hne, fun q => ?_⟩
  rw [lookup_prune hroot hne, lookup_prune hroot hne]
  split
  · exact .inl rfl
  · exact h.lookup q

/-- What is moved from one place to another is moved without a private directory elsewhere. -/
theorem Moved.prune {l : Place} (h : Moved t l k t') (hroot : f.isRoot = false) (hne : f ≠ [])
    (hl : ∀ rest, ¬ f <+: l ++ rest) (hk : ∀ rest, ¬ f <+: k ++ rest) :
    Moved (t.prune f) l k (t'.prune f) where
  inside rest := by
    rw [lookup_prune_of_not_above hroot hne (hk rest),
      lookup_prune_of_not_above hroot hne (hl rest), h.inside]
  gone q hlq hkq := by
    rw [lookup_prune hroot hne, h.gone q hlq hkq, ite_self]
  others q hlq hkq := by
    rw [lookup_prune hroot hne, lookup_prune hroot hne, h.others q hlq hkq]

end FileTree

open FileTree

variable {α : Type} {before : Contents → Prop} {after : α → Contents → Prop}
  {t u u₁ u₂ t' : FileTree} {made : List Place}

/-! ## Private directories -/

/-- A builder can use its private directory to publish at a destination: the directory is there, it
is neither at the destination nor below, and neither its own path nor that of the destination leads
through it. -/
structure Workspace.InUse (t : FileTree) (w : Workspace) (target : Path) : Prop where
  names : t.Names w.path
  lookup_place : t.lookup w.path.place = some .directory
  out : w.path.place ∉ w.path.trail
  aside : w.path.place ∉ target.track
  apart : ¬ target.place <+: w.path.parent.place

/-- Seen from outside of a private directory, a run is all or nothing. The private directory is
still there, and directories that were at the destination are. -/
structure Confined (before : Contents → Prop) (after : α → Contents → Prop) (t : FileTree)
    (f target : Place) (made : List Place) (run : Result α × FileTree) : Prop where
  sound : run.2.Sound
  lookup_place : run.2.lookup f = some .directory
  stays : (∃ a, run.1 = .ok a) → ∀ q, target <+: q → t.lookup q = some .directory →
    run.2.lookup q = some .directory
  allOrNothing : AllOrNothing before after (t.prune f) target made (run.1, run.2.prune f)

namespace Confined

variable {β : Type} {f target : Place} {after' : β → Contents → Prop}

/-- A failure that changes nothing. -/
theorem of_error (hs : t.Sound) (hf : t.lookup f = some .directory) (hroot : f.isRoot = false)
    (hne : f ≠ []) (hmade : ∀ q ∈ made, ¬ target <+: q) (e : StoreError) :
    Confined before after t f target made (.error e, t) :=
  ⟨hs, hf, fun ⟨_, h⟩ => (nomatch h), .of_made ⟨e, rfl⟩ (.refl (hs.prune hroot hne)) hmade⟩

/-- The answer may be replaced by another one. -/
theorem bind_pure {x : Disk α} {g : α → β} (h : Confined before after t f target made (x.apply t))
    (hafter : ∀ a c, after a c → after' (g a) c) :
    Confined before after' t f target made ((x >>= fun a => pure (g a)).apply t) := by
  rcases hrun : x.apply t with ⟨r, t'⟩
  rw [hrun] at h
  rw [Disk.apply_bind, hrun]
  cases r with
  | error e =>
    exact ⟨h.sound, h.lookup_place, fun ⟨_, h⟩ => (nomatch h), h.allOrNothing.sound,
      fun _ _ => h.allOrNothing.failed e rfl, fun _ h => (nomatch h), h.allOrNothing.beside⟩
  | ok a =>
    refine ⟨h.sound, h.lookup_place, fun _ => h.stays ⟨a, rfl⟩, h.allOrNothing.sound,
      fun _ h => (nomatch h), fun b hb => ?_, h.allOrNothing.beside⟩
    obtain rfl := Except.ok.inj hb
    exact (h.allOrNothing.finished a rfl).imp_right (hafter a _)

end Confined

namespace Workspace

variable {w : Workspace} {dest : Destination}

/-- A step that fails is followed by an attempt to remove the private directory. -/
theorem apply_guarding_of_error (w : Workspace) {body : Disk α} {e : StoreError}
    (h : body.apply t = (.error e, u)) :
    (w.guarding body).apply t = (.error e, (w.close.apply u).2) := by
  rw [guarding, Disk.apply_undoing_eq, h]

namespace InUse

variable {path : Path} (hw : w.InUse t path)

include hw

theorem isRoot_place : w.path.place.isRoot = false := Path.isRoot_place hw.names.proper

theorem not_above_place : ¬ path.place <+: w.path.place := fun habove => by
  obtain ⟨last, -, -, hlast⟩ := Path.place_eq_append hw.names.proper
  rcases List.prefix_concat_iff.1 (hlast ▸ habove) with heq | habove
  · exact hw.aside (by rw [hlast, ← heq]; exact path.place_mem_track)
  · exact hw.apart habove

theorem not_above_of_mem {l : Place} (hl : l ∈ path.track) : ¬ w.path.place <+: l := fun habove =>
  hw.aside (Path.mem_track_of_above hl habove w.path.place_ne_nil)

theorem notMem_parent : w.path.place ∉ path.parent.track := fun hmem =>
  (Path.mem_trail_or_isRoot hmem).elim (fun h => hw.aside (Path.mem_track_of_mem_trail h))
    fun hroot => by simp [hw.isRoot_place] at hroot

theorem not_above_append (rest : Place) : ¬ w.path.place <+: path.place ++ rest := fun habove =>
  (List.prefix_or_prefix_of_prefix habove (List.prefix_append _ _)).elim
    (hw.not_above_of_mem path.place_mem_track) hw.not_above_place

/-- What stands at the destination can be seen without the private directory. -/
theorem contentsAt_prune : (t'.prune w.path.place).contentsAt path.place =
    t'.contentsAt path.place :=
  FileTree.contentsAt_prune hw.isRoot_place w.path.place_ne_nil
    (hw.not_above_of_mem path.place_mem_track) hw.not_above_place

end InUse

/-! ## Files at the destination -/

section

variable {path : Path} {r : Result α}

/-- Only directories on the way were made before a run that worked in the private directory. -/
theorem made_of_wrote (hw : w.InUse t path) (hmade : t.Made path.trail u)
    (hwrote : u.Wrote w.path.place [] t') :
    (t.prune w.path.place).Made path.trail (t'.prune w.path.place) := by
  refine ⟨hwrote.sound.prune hw.isRoot_place w.path.place_ne_nil, fun q => ?_⟩
  rw [lookup_prune hw.isRoot_place w.path.place_ne_nil,
    lookup_prune hw.isRoot_place w.path.place_ne_nil]
  split
  · exact .inl rfl
  · rw [hwrote.outside q ‹_› (by simp)]
    exact hmade.lookup q

/-- A failure after work in the private directory. -/
theorem confined_of_error (hw : w.InUse t path) (hout : path.place ∉ path.trail)
    (hr : ∃ e, r = .error e) (hmade : t.Made path.trail u)
    (hwrote : u.Wrote w.path.place [] t') :
    Confined before after t w.path.place path.place path.trail (r, t') := by
  obtain ⟨e, rfl⟩ := hr
  exact ⟨hwrote.sound, hwrote.lookup_place, fun ⟨_, h⟩ => (nomatch h),
    .of_made ⟨e, rfl⟩ (made_of_wrote hw hmade hwrote) fun q => Disk.not_above_of_mem_trail hout⟩

/-- **A file that was written where no directory was.** -/
theorem confined_of_file {a : α} {content : ByteArray} (hs : t.Sound) (hw : w.InUse t path)
    (hmade : t.Made path.trail u) (hold : u.lookup path.place ≠ some .directory)
    (hwrote : u.Wrote w.path.place [path.place] t')
    (hfile : t'.lookup path.place = some (.file content))
    (hafter : ∀ c : Contents, c.IsFile content → after a c) :
    Confined Contents.IsFree after t w.path.place path.place path.trail (.ok a, t') := by
  have hroot := hw.isRoot_place
  have hne := w.path.place_ne_nil
  have hfree : t.lookup path.place ≠ some .directory := fun hdir =>
    hold (hmade.lookup_of_some hdir)
  refine ⟨hwrote.sound, hwrote.lookup_place, fun _ q hq hdir => ?_,
    hwrote.sound.prune hroot hne, fun _ h => (nomatch h), fun b hb => ?_, fun q hq => ?_⟩
  · by_cases hself : q = path.place
    · exact absurd (hself ▸ hdir) hfree
    · rw [hs.lookup_below hfree path.place_ne_nil hq hself] at hdir
      cases hdir
  · obtain rfl := Except.ok.inj hb
    rw [hw.contentsAt_prune, hw.contentsAt_prune]
    refine ⟨by simpa [Contents.IsFree, contentsAt] using hfree, hafter _ ⟨?_, fun rest hrest => ?_⟩⟩
    · simpa [contentsAt] using hfile
    · exact hwrote.sound.lookup_below (by simp [hfile]) path.place_ne_nil (List.prefix_append _ _)
        (by simpa using hrest)
  · rw [lookup_prune hroot hne, lookup_prune hroot hne]
    split
    · exact .inl rfl
    · have hqne : q ∉ [path.place] := fun hmem =>
        hq (List.mem_singleton.1 hmem ▸ List.prefix_refl _)
      rw [hwrote.outside q ‹_› hqne]
      exact hmade.lookup q

end

/-! ## Staging beside the destination -/

section

variable {fill : Destination → Disk α} {names : List String} {name : String} {r r₂ : Result α}

/-- What fills a directory that is staged beside the destination writes just these files in it, and
works in the private directory. -/
def Fills (w : Workspace) (dest : Destination) (fill : Destination → Disk α)
    (names : List String) : Prop :=
  ∀ name, name ≠ ".." → w.path.place ∉ (dest.path.parent.child name).track →
    Disk.Writes w.path.place (names.map fun n => (dest.path.parent.child name).place ++ [n])
      (fun _ => True) (fill ⟨dest.path.parent.child name, dest.text⟩)

/-- A staged directory was filled while a private one was in use. -/
structure Filled (t : FileTree) (w : Workspace) (path : Path) (names : List String) (name : String)
    (t₁ : FileTree) (r : Result α) (t₂ : FileTree) : Prop where
  sound : t₂.Sound
  private_place : t₂.lookup w.path.place = some .directory
  staged_place : t₂.lookup (path.parent.place ++ [name]) = some .directory
  private_apart : ∀ rest, ¬ w.path.place <+: path.parent.place ++ [name] ++ rest
  staged_apart : ¬ path.parent.place ++ [name] <+: w.path.place
  outside : ∀ q, ¬ w.path.place <+: q → ¬ path.parent.place ++ [name] <+: q →
    t₂.lookup q = t₁.lookup q
  just : (∃ a, r = .ok a) →
    (t₂.contentsAt (path.parent.place ++ [name])).IsFolderOf names

/-- Neither the private directory nor one that is staged beside the destination is in the other. -/
theorem InUse.apart_of_opened {path : Path} (hw : w.InUse t path) (hs : t.Sound)
    (ho : t.Opened path.parent name u) :
    (∀ rest, ¬ w.path.place <+: path.parent.place ++ [name] ++ rest) ∧
      ¬ path.parent.place ++ [name] <+: w.path.place := by
  have hnot : ¬ path.parent.place ++ [name] <+: w.path.place := fun habove => by
    have hdir := hw.lookup_place
    rw [hs.lookup_of_absent ho.absent (by simp) habove] at hdir
    cases hdir
  refine ⟨fun rest habove => ?_, hnot⟩
  rcases List.prefix_or_prefix_of_prefix habove (List.prefix_append _ _) with h | h
  · rcases List.prefix_concat_iff.1 h with heq | h
    · exact hnot (heq ▸ List.prefix_refl _)
    · exact hw.notMem_parent (Path.mem_track_of_above path.parent.place_mem_track h
        w.path.place_ne_nil)
  · exact hnot h

theorem filled_of_staging (hs : t.Sound) (hw : w.InUse t dest.path)
    (hfill : w.Fills dest fill names) (hst : Disk.Staging t dest fill name u₁ r₂ u₂) :
    Filled t w dest.path names name u₁ r₂ u₂ := by
  have hdots := hst.dots
  have ho := hst.opened
  have hplace := Path.place_child dest.path.parent hdots
  obtain ⟨hps, hsp⟩ := hw.apart_of_opened hs ho
  have htrack : w.path.place ∉ (dest.path.parent.child name).track := fun hmem => by
    rw [Path.track_child _ hdots] at hmem
    rcases List.mem_append.1 hmem with hmem | hmem
    · exact hw.notMem_parent hmem
    · exact hsp (List.mem_singleton.1 hmem ▸ List.prefix_refl _)
  have hwrites := hfill name hdots htrack u₁ r₂ u₂ ho.sound (ho.lookup_directory hw.lookup_place)
    hst.run
  rw [hplace] at hwrites
  obtain ⟨⟨done, hdone, hwrote⟩, hok⟩ := hwrites
  have hin : ∀ q, ¬ dest.path.parent.place ++ [name] <+: q →
      q ∉ names.map fun n => dest.path.parent.place ++ [name] ++ [n] := fun q hq hmem => by
    obtain ⟨n, -, rfl⟩ := List.mem_map.1 hmem
    exact hq (List.prefix_append _ _)
  have hself : dest.path.parent.place ++ [name] ∉
      names.map fun n => dest.path.parent.place ++ [name] ++ [n] := fun hmem => by
    obtain ⟨n, -, heq⟩ := List.mem_map.1 hmem
    simp at heq
  have hstaged : u₂.lookup (dest.path.parent.place ++ [name]) = some .directory := by
    have hapart := hps []
    rw [List.append_nil] at hapart
    rw [hwrote.outside _ hapart fun hmem => hself (hdone hmem), ho.lookup_place]
  refine ⟨hwrote.sound, hwrote.lookup_place, hstaged, hps, hsp, fun q hqp hqs =>
    hwrote.outside q hqp fun hmem => hin q hqs (hdone hmem), fun ⟨a, ha⟩ => ⟨?_, ?_, ?_⟩⟩
  · simpa [contentsAt] using hstaged
  · intro l hl
    obtain ⟨n, hn, rfl⟩ := List.mem_map.1 hl
    exact (hok a ha).1.file _ (List.mem_map.2 ⟨n, hn, rfl⟩) (hps [n])
  · intro l hdir hfile
    rw [contentsAt, (hok a ha).1.outside _ (hps l),
      ho.lookup_below hs (List.prefix_append _ _) (by simpa using hdir)]
    intro hmem
    obtain ⟨n, hn, heq⟩ := List.mem_map.1 hmem
    exact hfile (List.mem_map.2 ⟨n, hn, List.append_cancel_left heq⟩)

theorem Filled.contentsAt_prune (h : Filled t w dest.path names name u₁ r₂ u₂)
    (hw : w.InUse t dest.path) :
    (u₂.prune w.path.place).contentsAt (dest.path.parent.place ++ [name]) =
      u₂.contentsAt (dest.path.parent.place ++ [name]) :=
  contentsAt_eq fun _ ⟨rest, hrest⟩ => lookup_prune_of_not_above hw.isRoot_place
    w.path.place_ne_nil (hrest ▸ h.private_apart rest)

/-- Seen without the private directory, only directories were made outside of the staged one. -/
theorem Filled.madeOutside (h : Filled t w dest.path names name u₁ r₂ u₂)
    (hw : w.InUse t dest.path) (hst : Disk.Staging t dest fill name u₁ r₂ u₂) :
    (t.prune w.path.place).MadeOutside (dest.path.parent.place ++ [name]) dest.path.trail
      (u₂.prune w.path.place) := by
  intro q hq
  rw [lookup_prune hw.isRoot_place w.path.place_ne_nil,
    lookup_prune hw.isRoot_place w.path.place_ne_nil]
  split
  · exact .inl rfl
  · rw [h.outside q ‹_› hq]
    exact (hst.opened.madeOutside hst.noFile q hq).mono fun hmem => mem_trail_of_absent hmem

/-- What is below a vacant destination and a directory is the destination. -/
theorem stays_of_vacant {path : Path} {files : List Place}
    (hv : (t.contentsAt path.place).IsVacant) (hj : (t'.contentsAt path.place).IsJust [[]] files)
    {q : Place} (hq : path.place <+: q) (hdir : t.lookup q = some .directory) :
    t'.lookup q = some .directory := by
  obtain ⟨rest, rfl⟩ := hq
  cases rest with
  | nil => exact hj.directory [] (by simp)
  | cons a rest =>
    have hnone := hv.below (a :: rest) (by simp)
    rw [contentsAt, hdir] at hnone
    cases hnone

/-- **Staging files of a builder is all or nothing**, seen from outside of its private directory. -/
theorem confined_staged (hs : t.Sound) (hw : w.InUse t dest.path)
    (hout : dest.path.place ∉ dest.path.trail) (hnames : names ≠ [])
    (hfill : w.Fills dest fill names) :
    Confined Contents.IsVacant (fun _ => Contents.IsFolderOf names) t w.path.place
      dest.path.place dest.path.trail ((Disk.staged dest fill).apply t) := by
  have hroot := hw.isRoot_place
  have hne := w.path.place_ne_nil
  have hpaths : ∀ q ∈ dest.path.trail, ¬ dest.path.place <+: q := fun q =>
    Disk.not_above_of_mem_trail hout
  have hfilled : ∀ name t₁ r₂ t₂, Disk.Staging t dest fill name t₁ r₂ t₂ → t₂.Sound ∧
      t₂.HasFolder (dest.path.parent.child name) ∧ ((∃ a, r₂ = .ok a) →
        ∃ inner, t₂.lookup (dest.path.parent.place ++ [name] ++ [inner]) ≠ none) := by
    intro name t₁ r₂ t₂ hst
    have hf := filled_of_staging hs hw hfill hst
    refine ⟨hf.sound, (hasFolder_child hst.dots).2 ⟨fun l hl => ?_, hf.staged_place⟩, fun hok => ?_⟩
    · rw [hf.outside l (fun habove => hw.notMem_parent (Path.mem_track_of_above hl habove hne))
        (hst.opened.not_above_of_mem hl), hst.opened.hasFolder l hl]
    · obtain ⟨n, hn⟩ := List.exists_mem_of_ne_nil _ hnames
      exact ⟨n, (hf.just hok).ne_none (List.mem_append_right _ (List.mem_map.2 ⟨n, hn, rfl⟩))⟩
  rcases hrun : (Disk.staged dest fill).apply t with ⟨r, t'⟩
  rcases Disk.staged_cases hs hout hfilled hrun with
    ⟨⟨e, rfl⟩, hm⟩ | ⟨name, t₁, r₂, t₂, hst, hs', hcases⟩
  · exact ⟨hm.sound, hm.lookup_of_some hw.lookup_place, fun ⟨_, h⟩ => (nomatch h),
      .of_made ⟨e, rfl⟩ (hm.prune hroot hne) hpaths⟩
  have hf := filled_of_staging hs hw hfill hst
  have hbeside := hf.madeOutside hw hst
  have hs₀ := hs.prune hroot hne
  have habsent : (t.prune w.path.place).lookup (dest.path.parent.place ++ [name]) = none := by
    rw [lookup_prune hroot hne, hst.opened.absent, ite_self]
  rcases hcases with ⟨⟨e, rfl⟩, hlookup⟩ | ⟨⟨a, rfl⟩, rfl, hv, hapart, hmoved⟩
  · refine ⟨hs', by rw [hlookup, if_neg hf.staged_apart, hf.private_place],
      fun ⟨_, h⟩ => (nomatch h), .of_made ⟨e, rfl⟩ (.of_gone hs₀ habsent (by simp) hbeside
        (hs'.prune hroot hne) fun q => ?_) hpaths⟩
    rw [lookup_prune hroot hne, lookup_prune hroot hne, hlookup]
    split <;> simp
  · have hall : AllOrNothing Contents.IsVacant (fun _ => Contents.IsFolderOf names)
        (t.prune w.path.place) dest.path.place dest.path.trail (.ok a, t'.prune w.path.place) :=
      .of_moved hs₀ hv.names.proper habsent hbeside hpaths hapart
        (by rw [hw.contentsAt_prune]; exact hv.contentsAt)
        (hmoved.prune hroot hne hf.private_apart hw.not_above_append) (hs'.prune hroot hne)
        (by rw [hf.contentsAt_prune hw]; exact hf.just ⟨a, rfl⟩)
    refine ⟨hs', ?_, fun _ q hq hdir => ?_, hall⟩
    · rw [hmoved.others _ hf.staged_apart hw.not_above_place, hf.private_place]
    · obtain ⟨hvacant, hjust⟩ := hall.finished a rfl
      rw [hw.contentsAt_prune] at hvacant hjust
      exact stays_of_vacant hvacant hjust hq hdir

end

/-- **The last step of a builder is all or nothing**, seen without its private directory, which is
gone afterwards. -/
theorem allOrNothing_consume {body : Disk α} (hw : w.InUse t dest.path)
    (hbody : Confined before after t w.path.place dest.path.place made (body.apply t)) :
    AllOrNothing before after (t.prune w.path.place) dest.path.place made
      ((w.consume body).apply t) := by
  have hroot := hw.isRoot_place
  have hne := w.path.place_ne_nil
  rcases hrun : body.apply t with ⟨r, t₁⟩
  rw [hrun] at hbody
  -- the private directory can still be reached
  have htrail : ∀ l ∈ w.path.trail, t₁.lookup l = some .directory := by
    intro l hl
    have hdir := hw.names.leads l hl
    have hf : ¬ w.path.place <+: l := fun habove =>
      hw.out (Path.mem_trail_of_above hl habove hne)
    by_cases hbelow : dest.path.place <+: l
    · cases r with
      | error e =>
        have hsame := hbody.allOrNothing.failed e rfl
        rw [hw.contentsAt_prune, hw.contentsAt_prune] at hsame
        obtain ⟨rest, rfl⟩ := hbelow
        exact (congrFun hsame rest).trans hdir
      | ok a => exact hbody.stays ⟨a, rfl⟩ l hbelow hdir
    · have hkept := hbody.allOrNothing.beside.lookup_of_some hbelow
        (lookup_prune_of_not_above hroot hne hf ▸ hdir)
      rwa [lookup_prune_of_not_above hroot hne hf] at hkept
  obtain ⟨t₂, hclose, hlookup⟩ :=
    Disk.removeAll_of_names ⟨hw.names.proper, htrail⟩ hbody.lookup_place hw.out
  have hdone : (w.consume body).apply t = (r, t₂) := by
    cases r with
    | error e =>
      rw [consume, Disk.apply_bind, w.apply_guarding_of_error hrun, close, hclose]
    | ok a =>
      rw [consume, Disk.apply_bind_of_ok (w.apply_guarding hrun), close,
        Disk.apply_bind_of_ok hclose]
      rfl
  rw [hdone]
  refine hbody.allOrNothing.congr (fun q => ?_) (hbody.sound.of_pruned hlookup)
  rw [hlookup, lookup_prune hroot hne]

end Workspace

end TripleStore
