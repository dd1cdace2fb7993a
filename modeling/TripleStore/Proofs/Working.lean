import TripleStore.Proofs.Confinement

/-!
# Work before publication

A build makes a private directory, works in it in several steps, and publishes with the last one.
Until then it leaves no trace but the directories on the way to the working directory
(`Workspace.Working`): a step that fails removes the private directory. So a whole build is all or
nothing if its last step is.
-/

namespace TripleStore

open FileTree

variable {α : Type} {before : Contents → Prop} {after : α → Contents → Prop}
  {t u t' : FileTree} {made : List Place}

/-- Builds that work below one path may publish at another: the path of the destination does not
lead through the destination, names that are still to be given out differ from what it names and is
missing, and the working directory is not at the destination or below. -/
structure FileTree.Admits (t : FileTree) (work target : Path) : Prop where
  out : target.place ∉ target.trail
  apart : target.place ∉ work.track
  unguessed : ∀ l ∈ target.track, t.IsPending l → t.lookup l ≠ none

theorem FileTree.Admits.not_above {work path : Path} (h : t.Admits work path) :
    ∀ q ∈ work.track, ¬ path.place <+: q := fun _ hq habove =>
  h.apart (Path.mem_track_of_above hq habove path.place_ne_nil)

/-! ## Steps before the last one -/

namespace Workspace

section

variable {settings : Settings} {work : Path} {stem name : String} {r : Result Workspace}

/-- A fresh private directory was made in the working directory, and worked in. -/
structure Working (t : FileTree) (work : Path) (name : String) (t' : FileTree) : Prop where
  dots : name ≠ ".."
  noFile : ∀ l ∈ work.track, ∀ content, t.lookup l ≠ some (.file content)
  opened : ∃ t₁, t.Opened work name t₁ ∧ t₁.Inside (work.place ++ [name]) t'

namespace Working

variable (h : Working t work name u)

include h

theorem sound : u.Sound := by
  obtain ⟨t₁, -, hin⟩ := h.opened
  exact hin.sound

theorem lookup_place : u.lookup (work.place ++ [name]) = some .directory := by
  obtain ⟨t₁, -, hin⟩ := h.opened
  exact hin.lookup_place

theorem absent : t.lookup (work.place ++ [name]) = none := by
  obtain ⟨t₁, ho, -⟩ := h.opened
  exact ho.absent

theorem pending : t.IsPending (work.place ++ [name]) := by
  obtain ⟨t₁, ho, -⟩ := h.opened
  exact ho.pending

theorem out : work.place ++ [name] ∉ work.track := by
  obtain ⟨t₁, ho, -⟩ := h.opened
  exact ho.out

theorem madeOutside : t.MadeOutside (work.place ++ [name]) work.track u := by
  obtain ⟨t₁, ho, hin⟩ := h.opened
  intro q hq
  rw [hin.outside q hq]
  exact ho.madeOutside h.noFile q hq

theorem hasFolder : u.HasFolder work := fun l hl => by
  obtain ⟨t₁, ho, hin⟩ := h.opened
  rw [hin.outside l (ho.not_above_of_mem hl), ho.hasFolder l hl]

/-- More work in the private directory. -/
theorem of_wrote (hw : u.Wrote (work.place ++ [name]) [] t') : Working t work name t' := by
  obtain ⟨t₁, ho, hin⟩ := h.opened
  exact ⟨h.dots, h.noFile, t₁, ho, hin.trans hw.inside⟩

/-- **When the private directory is removed, only directories on the way to it were made.** -/
theorem close_apply (hs : t.Sound) : ∃ t', (close ⟨work.child name⟩).apply u = (.ok (), t') ∧
    t.Made work.track t' := by
  have hplace := Path.place_child work h.dots
  obtain ⟨t', hclose, hlookup⟩ := Disk.removeAll_of_names (names_child h.hasFolder h.dots)
    (hplace ▸ h.lookup_place) (by rw [hplace, Path.trail_child]; exact h.out)
  rw [hplace] at hlookup
  exact ⟨t', hclose, .of_gone hs h.absent (by simp) h.madeOutside (h.sound.of_pruned hlookup)
    hlookup⟩

/-- Seen without the private directory only directories on the way to it were made. -/
theorem made_prune (hs : t.Sound) : t.Made work.track (u.prune (work.child name).place) := by
  have hroot : (work.place ++ [name]).isRoot = false := Place.isRoot_append work.place_ne_nil
  rw [Path.place_child work h.dots]
  exact .of_gone hs h.absent (by simp) h.madeOutside (h.sound.prune hroot (by simp))
    (lookup_prune hroot (by simp))

/-- The private directory can be used to publish where builds may publish. -/
theorem inUse {path : Path} (ha : t.Admits work path) : InUse u ⟨work.child name⟩ path := by
  have hplace := Path.place_child work h.dots
  refine ⟨names_child h.hasFolder h.dots, ?_, ?_, ?_, ?_⟩
  · rw [hplace, h.lookup_place]
  · rw [hplace, Path.trail_child]
    exact h.out
  · rw [hplace]
    exact fun hmem => ha.unguessed _ hmem h.pending h.absent
  · rw [Path.place_parent_child]
    exact ha.not_above _ work.place_mem_track

end Working

/-- **Making a private directory makes only directories on the way to it**, and when it fails it
leaves nothing else. -/
theorem create_cases (hs : t.Sound) (hstem : stem ∈ temporaryStems)
    (hrun : (create settings stem).apply t = (r, t')) :
    (∃ e, r = .error e) ∧ t.Made settings.workPath.track t' ∨
    ∃ name, r = .ok ⟨settings.workPath.child name⟩ ∧ Working t settings.workPath name t' := by
  rw [create] at hrun
  rcases Disk.bind_cases hrun with ⟨e, rfl, hfail⟩ | ⟨_, t₀, hmake, hrest⟩
  · exact .inl ⟨⟨e, rfl⟩, Disk.made_makeDirectories hs hfail⟩
  have hmade := Disk.made_makeDirectories hs hmake
  have hgiven : t₀.given = t.given := by
    rw [← Disk.given_makeDirectories settings.workPath t, hmake]
  rcases Disk.bind_cases hrest with ⟨e, rfl, hfail⟩ | ⟨p, t₁, hfirst, hbody⟩
  · obtain rfl := Disk.eq_of_change_error hfail
    exact .inl ⟨⟨e, rfl⟩, hmade⟩
  obtain ⟨k, rfl, hwork, hk, habsent, hplaced⟩ :=
    of_makeFresh hmade.sound (Disk.apply_change_eq_ok.1 hfirst)
  have hdots := append_toString_ne_dots stem k
  have hpending := isPending_append hstem (hgiven ▸ hk) settings.workPath.place
  generalize stem ++ toString k = name at *
  have ho := hmade.opened hwork hpending hgiven habsent hplaced
  have hworking : Working t settings.workPath name t₁ :=
    ⟨hdots, hmade.noFile hwork, t₁, ho, Inside.refl ho.sound ho.lookup_place⟩
  rcases Disk.undoing_cases hbody with ⟨w, rfl, hdone⟩ | ⟨e, t₂, rfl, hfail, rfl⟩
  · obtain ⟨_, t₂, hrequire, hpure⟩ := Disk.apply_bind_eq_ok.1 hdone
    obtain rfl := (Disk.Reads.ofResult _).eq hrequire
    obtain ⟨rfl, rfl⟩ : ⟨settings.workPath.child name⟩ = w ∧ t₂ = t' := by simpa using hpure
    exact .inr ⟨name, rfl, hworking⟩
  · obtain rfl : t₂ = t₁ := by
      rcases Disk.bind_cases hfail with ⟨_, -, hrequire⟩ | ⟨_, _, -, hpure⟩
      · exact (Disk.Reads.ofResult _).eq hrequire
      · cases hpure
    obtain ⟨u, hclose, hmade'⟩ := hworking.close_apply hs
    rw [hclose]
    exact .inl ⟨⟨e, rfl⟩, hmade'⟩

/-- A step before the last one goes on working or leaves only directories on the way. -/
theorem guarding_cases {body : Disk α} {Q : α → Prop} {r : Result α} (hs : t.Sound)
    (h : Working t work name u) (hbody : Disk.Writes (work.child name).place [] Q body)
    (hrun : (guarding ⟨work.child name⟩ body).apply u = (r, t')) :
    (∃ e, r = .error e) ∧ t.Made work.track t' ∨ ∃ a, r = .ok a ∧ Q a ∧ Working t work name t' := by
  rw [Path.place_child work h.dots] at hbody
  rcases Disk.undoing_cases hrun with ⟨a, rfl, hdone⟩ | ⟨e, t₁, rfl, hfail, rfl⟩
  · obtain ⟨hwrote, hQ⟩ := (hbody u _ t' h.sound h.lookup_place hdone).2 a rfl
    exact .inr ⟨a, rfl, hQ, h.of_wrote hwrote⟩
  · obtain ⟨t₂, hclose, hmade⟩ :=
      (h.of_wrote (hbody.wrote h.sound h.lookup_place hfail)).close_apply hs
    rw [hclose]
    exact .inl ⟨⟨e, rfl⟩, hmade⟩

/-! ## Whole builds -/

variable {β : Type} {Q : α → Prop} {afterLast : β → Contents → Prop} {target : Place}

/-- **A build is all or nothing if its last step is.** -/
theorem Working.allOrNothing {run : Result β × FileTree} (h : Working t work name u)
    (hs : t.Sound) (hway : ∀ q ∈ work.track, ¬ target <+: q)
    (hlast : AllOrNothing before afterLast (u.prune (work.child name).place) target made run) :
    AllOrNothing before afterLast t target (work.track ++ made) run :=
  .of_made_before (h.made_prune hs) hlast hway

/-- What follows the making of a private directory decides whether a build is all or nothing. -/
theorem allOrNothing_create_bind {g : Workspace → Disk β} (hs : t.Sound)
    (hstem : stem ∈ temporaryStems) (hway : ∀ q ∈ settings.workPath.track, ¬ target <+: q)
    (hnext : ∀ name u, Working t settings.workPath name u → AllOrNothing before afterLast t target
      (settings.workPath.track ++ made) ((g ⟨settings.workPath.child name⟩).apply u)) :
    AllOrNothing before afterLast t target (settings.workPath.track ++ made)
      ((create settings stem >>= g).apply t) := by
  rcases hrun : (create settings stem).apply t with ⟨r, u⟩
  rcases create_cases hs hstem hrun with ⟨⟨e, rfl⟩, hmade⟩ | ⟨name, rfl, hworking⟩
  · rw [Disk.apply_bind, hrun]
    exact (AllOrNothing.of_made ⟨e, rfl⟩ hmade hway).mono (List.subset_append_left _ _)
      fun _ _ h => h
  · rw [Disk.apply_bind_of_ok hrun]
    exact hnext name u hworking

/-- What follows a step before the last one decides whether a build is all or nothing. -/
theorem allOrNothing_guarding_bind {body : Disk α} {g : α → Disk β} (hs : t.Sound)
    (h : Working t work name u) (hbody : Disk.Writes (work.child name).place [] Q body)
    (hway : ∀ q ∈ work.track, ¬ target <+: q)
    (hnext : ∀ a t', Q a → Working t work name t' → AllOrNothing before afterLast t target
      (work.track ++ made) ((g a).apply t')) :
    AllOrNothing before afterLast t target (work.track ++ made)
      ((guarding ⟨work.child name⟩ body >>= g).apply u) := by
  rcases hrun : (guarding ⟨work.child name⟩ body).apply u with ⟨r, t'⟩
  rcases guarding_cases hs h hbody hrun with ⟨⟨e, rfl⟩, hmade⟩ | ⟨a, rfl, hQ, hworking⟩
  · rw [Disk.apply_bind, hrun]
    exact (AllOrNothing.of_made ⟨e, rfl⟩ hmade hway).mono (List.subset_append_left _ _)
      fun _ _ h => h
  · rw [Disk.apply_bind_of_ok hrun]
    exact hnext a t' hQ hworking

end

end Workspace

end TripleStore
