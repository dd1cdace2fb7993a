import TripleStore.Proofs.Workspace

/-!
# Builds in a staged directory

A store is put together in a directory that is staged beside its destination: one build after
another publishes there. The tree stays ready for each of them (`FileTree.Room`), and what the whole
of them leaves behind is again a build (`Disk.staged_of_room`).
-/

namespace TripleStore

namespace FileTree

variable {t t₁ t₂ : FileTree} {work folder target : Path} {used : List String} {name : String}
  {held : Place → Option Entry}

/-- Builds can publish in a directory, under names that are not used yet. -/
structure Room (t : FileTree) (work folder : Path) (used : List String) : Prop where
  sound : t.Sound
  passable : t.Passable work
  hasFolder : t.HasFolder folder
  free : ∀ name, name ∉ used → t.lookup (folder.place ++ [name]) = none
  out : ∀ name, folder.place ++ [name] ∉ folder.track
  apart : ∀ l ∈ work.track, ¬ folder.place <+: l
  unguessed : ∀ l ∈ work.track, t.IsPending l → t.lookup l ≠ none

/-- Outside a directory, only the directories of a track were made. -/
structure Filled (t : FileTree) (work folder : Path) (t' : FileTree) : Prop where
  outside : ∀ q, ¬ folder.place <+: q →
    t'.lookup q = if q ∈ work.track then some .directory else t.lookup q

theorem Filled.trans (h₁ : t.Filled work folder t₁) (h₂ : t₁.Filled work folder t₂) :
    t.Filled work folder t₂ := by
  refine ⟨fun q hq => ?_⟩
  rw [h₂.outside q hq, h₁.outside q hq]
  split <;> rfl

/-- The names of unfinished things have a dash. -/
theorem IsPending.dash_mem {l : Place} (h : t.IsPending l) :
    ∃ name ∈ l.getLast?, '-' ∈ name.toList := by
  obtain ⟨stem, hstem, k, -, hlast⟩ := h
  have hstems : ∀ stem ∈ temporaryStems, '-' ∈ stem.toList := by decide
  refine ⟨_, hlast, ?_⟩
  rw [String.toList_append]
  exact List.mem_append_left _ (hstems stem hstem)

namespace Room

/-- What is above a name in the directory is not on the way to the directory. -/
theorem not_above_of_mem (h : t.Room work folder used) {l : Place} (hl : l ∈ folder.track) :
    ¬ folder.place ++ [name] <+: l := fun habove =>
  h.out name (Path.mem_track_of_above hl habove (by simp))

/-- **There is room for one more build.** -/
theorem ready (h : t.Room work folder used) (hname : name ∉ used) (hdots : name ≠ "..")
    (hdash : '-' ∉ name.toList) : t.Ready work (folder.child name) := by
  have hplace := Path.place_child folder hdots
  refine ⟨⟨h.sound, h.passable, fun l hl content => ?_, .inl ?_, fun heq => ?_,
    fun l hl habove => ?_, fun l hl hpending => ?_⟩, Path.isProper_child folder hdots, ?_⟩
  · rw [h.hasFolder l (Path.trail_child folder name ▸ hl)]
    simp
  · rw [hplace, h.free name hname]
  · exact h.apart _ work.place_mem_track (heq ▸ hplace ▸ List.prefix_append _ _)
  · exact absurd ((List.prefix_append _ _).trans (hplace ▸ habove)) (h.apart l hl)
  · rcases hl with hl | hl
    · exact h.unguessed l hl hpending
    · rcases List.mem_append.1 (Path.track_child folder hdots ▸ hl) with hl | hl
      · rw [h.hasFolder l hl]
        simp
      · obtain ⟨last, hlast, hmem⟩ := hpending.dash_mem
        rw [List.mem_singleton.1 hl, List.getLast?_concat, Option.mem_some_iff] at hlast
        exact absurd (hlast ▸ hmem) hdash
  · rw [hplace, Path.trail_child]
    exact h.out name

/-- A build in the directory changes nothing else. -/
theorem lookup_of_built (h : t.Room work folder used) (hdots : name ≠ "..")
    (hb : t.Built work (folder.child name) held t₁) {q : Place}
    (hq : ¬ folder.place ++ [name] <+: q) :
    t₁.lookup q = if q ∈ work.track then some .directory else t.lookup q := by
  rw [hb.outside q (Path.place_child folder hdots ▸ hq), Path.trail_child]
  by_cases hwork : q ∈ work.track
  · simp [hwork]
  · by_cases hfolder : q ∈ folder.track
    · simp [hfolder, h.hasFolder q hfolder]
    · simp [hwork, hfolder]

theorem filled_of_built (h : t.Room work folder used) (hdots : name ≠ "..")
    (hb : t.Built work (folder.child name) held t₁) : t.Filled work folder t₁ :=
  ⟨fun _ hq => h.lookup_of_built hdots hb fun habove => hq ((List.prefix_append _ _).trans habove)⟩

/-- **After a build there is room for others.** -/
theorem of_built (h : t.Room work folder used) (hdots : name ≠ "..")
    (hb : t.Built work (folder.child name) held t₁) : t₁.Room work folder (name :: used) := by
  have hlookup := fun q => h.lookup_of_built hdots hb (q := q)
  have hwork : ∀ l ∈ work.track, t₁.lookup l = some .directory := fun l hl => by
    rw [hlookup l fun habove => h.apart l hl ((List.prefix_append _ _).trans habove), if_pos hl]
  refine ⟨hb.sound, ⟨fun l hl content => ?_, fun _ => hwork _ work.place_mem_track⟩, fun l hl => ?_,
    fun other hother => ?_, h.out, h.apart, fun l hl _ => ?_⟩
  · rw [hwork l hl]
    simp
  · rw [hlookup l (h.not_above_of_mem hl), h.hasFolder l hl]
    split <;> rfl
  · rw [List.mem_cons, not_or] at hother
    have hother' : ¬ folder.place ++ [name] <+: folder.place ++ [other] := fun habove => by
      have := habove.eq_of_length (by simp)
      exact hother.1 (by simpa using this.symm)
    rw [hlookup _ hother', if_neg fun hmem => h.apart _ hmem (List.prefix_append _ _),
      h.free other hother.2]
  · rw [hwork l hl]
    simp

/-- Under other names nothing changes. -/
theorem lookup_beside (h : t.Room work folder used) (hdots : name ≠ "..")
    (hb : t.Built work (folder.child name) held t₁) {other : String} (hne : other ≠ name)
    (rest : Place) : t₁.lookup (folder.place ++ other :: rest) =
      t.lookup (folder.place ++ other :: rest) := by
  rw [h.lookup_of_built hdots hb, if_neg fun hmem => h.apart _ hmem (List.prefix_append _ _)]
  intro habove
  have := (List.prefix_append_right_inj _).1 habove
  simp only [List.cons_prefix_cons, List.nil_prefix, and_true] at this
  exact hne this.symm

end Room

/-- **A directory that is staged beside a destination has room for builds.** -/
theorem Permits.room (h : t.Permits work target) (hdots : name ≠ "..")
    (ho : t.Opened target.parent name t₁) : t₁.Room work (target.parent.child name) [] := by
  have hplace := Path.place_child target.parent hdots
  have hout : ∀ l ∈ work.track, ¬ target.parent.place ++ [name] <+: l := fun l hl habove =>
    h.unguessed _ (.inl (Path.mem_track_of_above hl habove (by simp))) ho.pending ho.absent
  refine ⟨ho.sound,
    ⟨fun l hl content => ?_, fun hend => ho.lookup_directory (h.passable.dot hend)⟩,
    (hasFolder_child hdots).2 ⟨ho.hasFolder, ho.lookup_place⟩, fun other _ => ?_,
    fun other hmem => ?_, fun l hl => hplace ▸ hout l hl, fun l hl hl' => ?_⟩
  · rw [ho.lookup]
    split
    · simp
    · exact h.passable.noFile l hl content
  · rw [hplace, ho.lookup_below h.sound (List.prefix_append _ _) (by simp)]
  · rw [Path.track_child _ hdots, hplace] at hmem
    rcases List.mem_append.1 hmem with hmem | hmem
    · exact ho.not_above_of_mem hmem (List.prefix_append _ _)
    · simp at hmem
  · rw [ho.lookup]
    split
    · simp
    · exact h.unguessed l (.inl hl) (hl'.mono ho.given)

/-- After builds in the staged directory the destination is still vacant. -/
theorem Ready.vacant_of_filled (h : t.Ready work target) (hdots : name ≠ "..")
    (hname : target.place ≠ target.parent.place ++ [name]) (ho : t.Opened target.parent name t₁)
    (hfilled : t₁.Filled work (target.parent.child name) t₂) : t₂.Vacant target := by
  have htrack := Path.track_parent (Path.names_ne_nil_of_isProper h.proper)
  have hplace := Path.place_child target.parent hdots
  obtain ⟨last, -, -, hlast⟩ := Path.place_eq_append h.proper
  have hbeside : ∀ q, target.place <+: q → ¬ target.parent.place ++ [name] <+: q := by
    intro q hq habove
    rw [hlast] at hq hname
    rcases List.prefix_or_prefix_of_prefix habove hq with h | h
    · exact hname (h.eq_of_length (by simp)).symm
    · exact hname (h.eq_of_length (by simp))
  have hlookup : ∀ q, target.place <+: q →
      t₂.lookup q = if q ∈ work.track then some .directory else t.lookup q := by
    intro q hq
    have hstaged : q ≠ target.parent.place ++ [name] := by
      rintro rfl
      exact hbeside _ hq (List.prefix_refl _)
    have htrail : q ∉ target.parent.track := fun hmem => by
      have := Path.mem_track_of_above hmem hq target.place_ne_nil
      rw [htrack] at this
      exact h.out this
    rw [hfilled.outside q (hplace ▸ hbeside q hq), ho.lookup]
    simp [hstaged, htrail]
  refine ⟨⟨h.proper, fun l hl => ?_⟩, h.out, ?_, fun q hq hne => ?_⟩
  · rw [← htrack] at hl
    rw [hfilled.outside l (hplace ▸ ho.not_above_of_mem hl), ho.hasFolder l hl]
    split <;> rfl
  · rw [hlookup _ (List.prefix_refl _)]
    split
    · exact .inr rfl
    · exact h.vacant.imp id And.left
  · rw [hlookup q hq, if_neg fun hmem => hne (h.wayApart q hmem hq)]
    exact h.below hq hne

end FileTree

namespace Disk

open FileTree

variable {t : FileTree} {work : Path} {target : Destination} {α : Type}
  {fill : Destination → Disk α}

/-- **What builds in a staged directory put there is published.** `R` relates the answer to it. -/
theorem staged_of_room {R : α → (Place → Option Entry) → Prop} (hr : t.Ready work target.path)
    (hfill : ∀ name t₁, name ≠ ".." → t₁.Room work (target.path.parent.child name) [] →
      ∃ a used t₂, (fill ⟨target.path.parent.child name, target.text⟩).apply t₁ = (.ok a, t₂) ∧
        t₂.Room work (target.path.parent.child name) used ∧
        t₁.Filled work (target.path.parent.child name) t₂ ∧
        R a fun rest => t₂.lookup ((target.path.parent.child name).place ++ rest)) :
    ∃ a held t', (staged target fill).apply t = (.ok a, t') ∧
      t.Built work target.path held t' ∧ R a held := by
  have htrack := Path.track_parent (Path.names_ne_nil_of_isProper hr.proper)
  obtain ⟨name, t₁, hdots, ho, happly⟩ :=
    apply_staged hr.sound (passable_parent hr.noFile) fill
  have hplace := Path.place_child target.path.parent hdots
  have hname : target.path.place ≠ target.path.parent.place ++ [name] := fun heq =>
    hr.unguessed _ (.inr target.path.place_mem_track) (heq ▸ ho.pending) (heq ▸ ho.absent)
  have hroom := hr.room hdots ho
  obtain ⟨a, used, t₂, hrun, hroom₂, hfilled, hR⟩ := hfill name t₁ hdots hroom
  have hdir₂ := hroom₂.hasFolder.lookup_place
  rw [hplace] at hdir₂ hR
  obtain ⟨t', hpublish, hs', hmoved⟩ := publish_of_vacant hroom₂.sound
    (hr.vacant_of_filled hdots hname ho hfilled) hdots hdir₂ hname ho.out
  refine ⟨a, _, t', ?_, ⟨hs', hmoved.inside, fun q hq => ?_⟩, hR⟩
  · rw [happly]
    refine apply_undoing _ ?_
    rw [apply_bind_of_ok hrun, apply_bind_of_ok hpublish]
    rfl
  · rw [← htrack]
    by_cases hstaged : target.path.parent.place ++ [name] <+: q
    · have hwork : q ∉ work.track := fun hmem => hroom.apart q hmem (hplace ▸ hstaged)
      have hparent : q ∉ target.path.parent.track := fun hmem => ho.not_above_of_mem hmem hstaged
      rw [hmoved.gone q hstaged hq, hr.sound.lookup_of_absent ho.absent (by simp) hstaged]
      simp [hwork, hparent]
    · have hne : q ≠ target.path.parent.place ++ [name] := by
        rintro rfl
        exact hstaged (List.prefix_refl _)
      rw [hmoved.others q hstaged hq, hfilled.outside q (hplace ▸ hstaged), ho.lookup]
      by_cases hwork : q ∈ work.track <;> simp [hwork, hne]

/-- What fails in every staged directory fails. -/
theorem fst_staged_of_room {e : StoreError} (hr : t.Permits work target.path)
    (hfill : ∀ name t₁, name ≠ ".." → t₁.Room work (target.path.parent.child name) [] →
      ((fill ⟨target.path.parent.child name, target.text⟩).apply t₁).1 = .error e) :
    ((staged target fill).apply t).1 = .error e := by
  obtain ⟨name, t₁, hdots, ho, happly⟩ :=
    apply_staged hr.sound (passable_parent hr.noFile) fill
  rw [happly, fst_apply_undoing]
  exact apply_bind_of_error (hfill name t₁ hdots (hr.room hdots ho))

end Disk

end TripleStore
