import TripleStore.Disk
import TripleStore.Proofs.Disk.Run
import TripleStore.Proofs.FileTree.Change

/-!
# Making and removing directories

`makeDirectories` makes a directory of every place on the track of a path, as long as no file is in
the way, and changes nothing else. `removeAll` leaves nothing of a directory.
-/

namespace TripleStore

/-! ## Making -/

namespace FileTree

variable {t : FileTree} {p : Path}

/-- No file stands on the way of a path. A path that ends in a dot names a directory that is
there. -/
structure Passable (t : FileTree) (p : Path) : Prop where
  noFile : ∀ l ∈ p.track, ∀ content, t.lookup l ≠ some (.file content)
  dot : p.ending = .dot → t.lookup p.place = some .directory

/-- The directories of a track were made; nothing else changed. -/
def Paved (t : FileTree) (track : List Place) (t' : FileTree) : Prop :=
  ∀ q, t'.lookup q = if q ∈ track then some .directory else t.lookup q

theorem paved_self {track : List Place} (h : ∀ l ∈ track, t.lookup l = some .directory) :
    t.Paved track t := by
  intro q
  split
  · exact h q ‹_›
  · rfl

theorem Paved.append {a b : List Place} {t₁ t₂ : FileTree} (ha : t.Paved a t₁)
    (hb : t₁.Paved b t₂) : t.Paved (a ++ b) t₂ := by
  intro q
  rw [hb, ha]
  by_cases hqb : q ∈ b
  · simp [hqb]
  · by_cases hqa : q ∈ a <;> simp [hqa, hqb]

theorem Paved.hasFolder {t' : FileTree} (h : t.Paved p.track t') : t'.HasFolder p := fun l hl => by
  rw [h, if_pos hl]

/-- Making directories puts no file in the way. -/
theorem Paved.passable {track : List Place} {t' : FileTree} (h : t.Paved track t')
    (hp : t.Passable p) : t'.Passable p where
  noFile l hl content := by
    rw [h]
    split
    · simp
    · exact hp.noFile l hl content
  dot hend := by
    rw [h]
    split
    · rfl
    · exact hp.dot hend

theorem Passable.parent (h : t.Passable p) (hnames : p.names ≠ []) : t.Passable p.parent where
  noFile l hl := h.noFile l (Path.mem_track_of_mem_trail (Path.track_parent hnames ▸ hl))
  dot hend := by
    rw [Path.parent_eq hnames] at hend
    cases hend

theorem Passable.locate (h : t.Passable p) (hnames : p.names ≠ []) (hleads : t.Leads p) :
    t.locate p = .ok p.place := by
  have hblank : p.isBlank = false := by
    simp only [Path.isBlank, beq_eq_false_iff_ne]
    rintro rfl
    exact hnames rfl
  exact locate_eq_ok.2 ⟨⟨hblank, hleads, h.dot⟩, rfl⟩

/-- A place with nothing in it, to which a path leads, is named by the last name of the path. -/
theorem Leads.place_eq_append (hleads : t.Leads p) (hnames : p.names ≠ [])
    (hplace : t.lookup p.place ≠ some .directory) :
    p.place = p.parent.place ++ [p.names.getLast hnames] := by
  rw [Path.place_eq_follow hnames]
  refine (p.parent.place.follow_cases _).resolve_left fun hprefix => hplace ?_
  rw [Path.place_eq_follow hnames]
  refine ((hasFolder_parent hnames).2 hleads).lookup_above hprefix ?_
  rw [← Path.place_eq_follow hnames]
  exact p.place_ne_nil

end FileTree

namespace Disk

variable {t : FileTree} {p : Path}

open FileTree

/-- Files can stand where `requireFolder` answers. -/
theorem requireFolder_of_hasFolder (h : t.HasFolder p) :
    (requireFolder p).apply t = (.ok (), t) := by
  refine apply_look ?_
  rw [folder_eq_ok.2 ⟨h, rfl⟩]
  rfl

/-- **The last directory of a path is made where it can be followed.** -/
theorem ensureDirectory_of_leads (hs : t.Sound) (hp : t.Passable p) (hnames : p.names ≠ [])
    (hleads : t.Leads p) :
    ∃ t', (ensureDirectory p).apply t = (.ok (), t') ∧ t'.Sound ∧ t.Paved [p.place] t' := by
  have hlocate := hp.locate hnames hleads
  cases he : t.lookup p.place with
  | some e =>
    obtain rfl : e = .directory := by
      cases e with
      | directory => rfl
      | file content => exact absurd he (hp.noFile _ p.place_mem_track content)
    have hdir : t.isDirectory p = true := by
      rw [isDirectory, find_eq_ok.2 ⟨⟨hlocate, fun _ => he⟩, he⟩]
    refine ⟨t, apply_update (by rw [if_pos hdir]), hs, fun q => ?_⟩
    by_cases hq : q = p.place
    · simp [hq, he]
    · simp [hq]
  | none =>
    have hdir : t.isDirectory p = false := by
      cases hfind : t.find p with
      | error fault => rw [isDirectory, hfind]
      | ok found =>
        obtain ⟨⟨hl, -⟩, hsome⟩ := find_eq_ok.1 (show t.find p = .ok (found.1, found.2) from hfind)
        rw [hlocate] at hl
        rw [← Except.ok.inj hl, he] at hsome
        cases hsome
    have hmake : t.makeDirectory p = .ok (t.put p.place .directory) := by
      rw [makeDirectory, hlocate]
      simp [he, bind, Except.bind, pure, Except.pure]
    have hplace := hleads.place_eq_append hnames (by simp [he])
    have hroot : p.place.isRoot = false := by
      rw [hplace]
      exact Place.isRoot_append p.parent.place_ne_nil
    have hparent := ((hasFolder_parent hnames).2 hleads).lookup_place
    refine ⟨t.put p.place .directory, apply_update (by rw [hdir]; simpa using hmake), ?_,
      fun q => ?_⟩
    · rw [hplace] at he ⊢
      exact hs.put p.parent.place_ne_nil hparent (by simp [he])
    · simp [lookup_put hroot]

/-- Where no file is in the way, a name that cannot be followed is missing. -/
theorem walk_eq_notFound {names : List String} {l : Place}
    (hfree : ∀ a ∈ Path.trailFrom l names, ∀ content, t.lookup a ≠ some (.file content))
    (h : ¬ ∀ a ∈ Path.trailFrom l names, t.lookup a = some .directory) :
    t.walk l names = .error .notFound := by
  induction names generalizing l with
  | nil => simp [Path.trailFrom] at h
  | cons name names ih =>
    rw [walk, enter]
    cases hl : t.lookup l with
    | none => rfl
    | some e =>
      cases e with
      | file content => exact absurd hl (hfree l (by simp [Path.trailFrom]) content)
      | directory =>
        refine ih (fun a ha => hfree a (by simp [Path.trailFrom, ha])) fun hall => h ?_
        intro a ha
        rcases List.mem_cons.1 ha with rfl | ha
        · exact hl
        · exact hall a ha

theorem lacksParent_of_not_leads (hp : t.Passable p) (hnames : p.names ≠ [])
    (h : ¬ t.Leads p) : t.lacksParent p = true := by
  have hblank : p.isBlank = false := by
    simp only [Path.isBlank, beq_eq_false_iff_ne]
    rintro rfl
    exact hnames rfl
  have hwalk : t.walk (Place.start p) p.names = .error .notFound :=
    walk_eq_notFound (fun a ha => hp.noFile a (Path.mem_track_of_mem_trail ha)) h
  rw [lacksParent, FileTree.locate, hblank, hwalk]
  rfl

/-- **Every directory on a track can be made, as long as no file is in the way.** -/
theorem makeDirectories_of_passable (hs : t.Sound) (hp : t.Passable p) :
    ∃ t', (makeDirectories p).apply t = (.ok (), t') ∧ t'.Sound ∧ t.Paved p.track t' := by
  induction hn : p.names.length using Nat.strongRecOn generalizing p with
  | ind n ih =>
    rw [makeDirectories]
    by_cases hnames : p.names = []
    · rw [dif_pos hnames]
      refine ⟨t, rfl, hs, paved_self fun l hl => ?_⟩
      obtain rfl : l = Place.start p := by
        simpa [Path.track, Path.trail, Path.place, hnames, Path.trailFrom] using hl
      exact lookup_start t p
    rw [dif_neg hnames, apply_bind_of_ok (apply_get t)]
    by_cases hleads : t.Leads p
    · have hlacks : t.lacksParent p = false := by
        rw [lacksParent, hp.locate hnames hleads]
      obtain ⟨t', hrun, hs', hpaved⟩ := ensureDirectory_of_leads hs hp hnames hleads
      refine ⟨t', ?_, hs', (paved_self hleads).append hpaved⟩
      simpa [hlacks] using hrun
    · have hlacks := lacksParent_of_not_leads hp hnames hleads
      obtain ⟨t₁, hrun₁, hs₁, hpaved₁⟩ :=
        ih _ (hn ▸ p.length_parent hnames) (hp.parent hnames) rfl
      have hleads₁ : t₁.Leads p := (hasFolder_parent hnames).1 hpaved₁.hasFolder
      rw [Path.track_parent hnames] at hpaved₁
      obtain ⟨t₂, hrun₂, hs₂, hpaved₂⟩ :=
        ensureDirectory_of_leads hs₁ (hpaved₁.passable hp) hnames hleads₁
      refine ⟨t₂, ?_, hs₂, hpaved₁.append hpaved₂⟩
      rw [if_pos hlacks, apply_bind_of_ok hrun₁, hrun₂]

/-- Making directories gives out no number. -/
theorem given_makeDirectories (p : Path) (t : FileTree) :
    ((makeDirectories p).apply t).2.given = t.given := by
  have hensure : ∀ (p : Path) (t : FileTree), ((ensureDirectory p).apply t).2.given = t.given := by
    intro p t
    rcases snd_apply_update (fun t => if t.isDirectory p then .ok t else t.makeDirectory p) t with
      hmake | hkeep
    · rw [ensureDirectory]
      split at hmake
      · rw [← Except.ok.inj hmake]
      · obtain ⟨l, -, hput⟩ := bind_eq_ok.1 hmake
        obtain ⟨-, hput⟩ := refuse_eq_ok.1 hput
        rw [← Except.ok.inj hput]
        rfl
    · rw [ensureDirectory, hkeep]
  induction hn : p.names.length using Nat.strongRecOn generalizing p t with
  | ind n ih =>
    rw [makeDirectories]
    split
    · rfl
    rename_i hnames
    rw [apply_bind_of_ok (apply_get t)]
    split
    · have hparent := ih _ (hn ▸ p.length_parent hnames) p.parent t rfl
      rw [apply_bind]
      rcases hrun : (makeDirectories p.parent).apply t with ⟨r, t₁⟩
      rw [hrun] at hparent
      cases r with
      | error e => exact hparent
      | ok u => exact (hensure p t₁).trans hparent
    · exact hensure p t

/-! ## Removing -/

/-- **A directory is removed with everything below it.** -/
theorem removeAll_of_names (h : t.Names p) (he : t.lookup p.place = some .directory)
    (hout : p.place ∉ p.trail) :
    ∃ t', (removeAll p).apply t = (.ok (), t') ∧
      ∀ q, t'.lookup q = if p.place <+: q then none else t.lookup q := by
  obtain ⟨t₁, hclear, hlookup⟩ := h.clear he
  have hroot := Path.isRoot_place h.proper
  have habove : ∀ l ∈ p.trail, ¬ p.place <+: l := fun l hl hprefix => hout <| by
    have hnames := Path.names_ne_nil_of_isProper h.proper
    rw [← Path.track_parent hnames] at hl ⊢
    exact Path.mem_track_of_above hl hprefix p.place_ne_nil
  have hnames₁ : t₁.Names p := ⟨h.proper, fun l hl => by
    rw [hlookup, if_neg fun hbelow => habove l hl hbelow.1]
    exact h.leads l hl⟩
  have hplace₁ : t₁.lookup p.place = some .directory := by
    rw [hlookup, if_neg (by simp), he]
  have hempty₁ : ∀ name, t₁.lookup (p.place ++ [name]) = none := fun name => by
    rw [hlookup, if_pos ⟨List.prefix_append _ _, by simp⟩]
  refine ⟨t₁.drop p.place, ?_, fun q => ?_⟩
  · rw [removeAll, apply_bind_of_ok (apply_update hclear)]
    exact apply_update (hnames₁.removeDirectory hplace₁ hempty₁)
  · rw [lookup_drop hroot, hlookup]
    by_cases hq : q = p.place
    · simp [hq]
    · by_cases hbelow : p.place <+: q <;> simp [hq, hbelow]

end Disk

end TripleStore
