import TripleStore.Proofs.Disk.Publish
import TripleStore.Proofs.Sorter.Runs
import TripleStore.Workspace

/-!
# Building beside everything else

A builder works in a private directory and stages its files beside their destination. In a tree that
is ready for a build (`FileTree.Ready`) neither can fail, and when the build is done nothing of both
is left: the tree is as it was, but for directories on the way and for the destination
(`FileTree.Built`).
-/

namespace TripleStore

/-! ## Ready trees -/

namespace FileTree

variable {t t₁ t₂ t' : FileTree} {work target : Path} {f : Place}

/-- Nothing is in the way of a build that works below one path and publishes at another: no file is
where a directory is needed, the destination is absent or an empty directory, the working directory
is not there or below, and names that are still to be given out differ from what the paths name and
is missing. -/
structure Permits (t : FileTree) (work target : Path) : Prop where
  sound : t.Sound
  passable : t.Passable work
  noFile : ∀ l ∈ target.trail, ∀ content, t.lookup l ≠ some (.file content)
  vacant : t.lookup target.place = none ∨
    t.lookup target.place = some .directory ∧ ∀ name, t.lookup (target.place ++ [name]) = none
  workApart : work.place ≠ target.place
  wayApart : ∀ l ∈ work.track, target.place <+: l → l = target.place
  unguessed : ∀ l, l ∈ work.track ∨ l ∈ target.track → t.IsPending l → t.lookup l ≠ none

/-- Nothing is in the way of a build, and the path of its destination ends in a name of its own and
does not lead through the destination. -/
structure Ready (t : FileTree) (work target : Path) : Prop
    extends t.Permits work target, target.IsDirect

theorem lookup_empty (l : Place) :
    empty.lookup l = if l.isRoot then some .directory else none := by
  rw [lookup]
  split
  · rfl
  · exact Std.TreeMap.getElem?_emptyc

theorem sound_empty : empty.Sound := by
  intro l name hne hsome
  rw [lookup_empty, if_neg (by simp [Place.isRoot_append hne])] at hsome
  cases hsome

theorem IsPending.six_le_length {l : Place} (h : t.IsPending l) :
    ∃ name ∈ l.getLast?, 6 ≤ name.length := by
  obtain ⟨stem, hstem, k, -, hlast⟩ := h
  have hstems : ∀ stem ∈ temporaryStems, 6 ≤ stem.length := by decide
  refine ⟨_, hlast, ?_⟩
  rw [String.length_append]
  exact Nat.le_add_right_of_le (hstems stem hstem)

/-- A tree of nothing but its roots permits builds whose paths have short names. -/
theorem permits_empty {work target : Path} (hdot : work.ending ≠ .dot)
    (hapart : work.place ≠ target.place)
    (hway : ∀ l ∈ work.track, target.place <+: l → l = target.place)
    (hshort : ∀ l ∈ work.track ++ target.track, ∀ name ∈ l.getLast?, name.length < 6) :
    empty.Permits work target where
  sound := sound_empty
  passable := ⟨fun l _ content => by rw [lookup_empty]; split <;> simp, fun h => absurd h hdot⟩
  noFile l _ content := by rw [lookup_empty]; split <;> simp
  vacant := by
    have hempty : ∀ name, empty.lookup (target.place ++ [name]) = none := fun name => by
      rw [lookup_empty, if_neg (by simp [Place.isRoot_append target.place_ne_nil])]
    by_cases hroot : target.place.isRoot = true
    · exact .inr ⟨by rw [lookup_empty, if_pos hroot], hempty⟩
    · exact .inl (by rw [lookup_empty, if_neg hroot])
  workApart := hapart
  wayApart := hway
  unguessed l hl hpending := by
    obtain ⟨name, hname, hlong⟩ := hpending.six_le_length
    have := hshort l (List.mem_append.2 hl) name hname
    omega

/-- A tree of nothing but its roots is ready for builds whose paths have short names. -/
theorem ready_empty {work target : Path} (hdot : work.ending ≠ .dot)
    (hproper : target.isProper = true) (hout : target.place ∉ target.trail)
    (hapart : work.place ≠ target.place)
    (hway : ∀ l ∈ work.track, target.place <+: l → l = target.place)
    (hshort : ∀ l ∈ work.track ++ target.track, ∀ name ∈ l.getLast?, name.length < 6) :
    empty.Ready work target :=
  ⟨permits_empty hdot hapart hway hshort, hproper, hout⟩

/-- With default settings a tree of nothing but its roots is ready for a build at `/out`. -/
theorem ready_out : empty.Ready Settings.default.workPath ⟨true, ["out"], .name⟩ :=
  ready_empty (by decide) (by decide) (by decide) (by decide) (by decide) (by decide)

/-- No file is in the way of something beside a path that no file is in the way of. -/
theorem passable_parent
    (hfile : ∀ l ∈ target.trail, ∀ content, t.lookup l ≠ some (.file content)) :
    t.Passable target.parent := by
  refine ⟨fun l hl content => ?_, fun hend => ?_⟩
  · rcases Path.mem_trail_or_isRoot hl with htrail | hroot
    · exact hfile l htrail content
    · rw [lookup_of_isRoot hroot]
      simp
  · unfold Path.parent at hend
    split at hend <;> cases hend

/-- A build published what it made and left nothing else behind but directories on the way. -/
structure Built (t : FileTree) (work target : Path) (held : Place → Option Entry)
    (t' : FileTree) : Prop where
  sound : t'.Sound
  inside : ∀ rest, t'.lookup (target.place ++ rest) = held rest
  outside : ∀ q, ¬ target.place <+: q → t'.lookup q =
    if q ∈ work.track ∨ q ∈ target.trail then some .directory else t.lookup q

/-- The published directory can be looked into. -/
theorem Built.hasFolder {held : Place → Option Entry} (h : t.Built work target held t')
    (hr : t.Ready work target) (hheld : held [] = some .directory) : t'.HasFolder target := by
  have htrack := Path.track_parent (Path.names_ne_nil_of_isProper hr.proper)
  refine hasFolder_iff.2 ⟨fun l hl => ?_, ?_⟩
  · have hnot : ¬ target.place <+: l := fun habove => by
      have := Path.mem_track_of_above (htrack ▸ hl) habove target.place_ne_nil
      rw [htrack] at this
      exact hr.out this
    rw [h.outside l hnot, if_pos (.inr hl)]
  · have := h.inside []
    rwa [List.append_nil, hheld] at this

/-- A published file can be opened. -/
theorem Built.load {held : Place → Option Entry} (h : t.Built work target held t')
    (hr : t.Ready work target) (hheld : held [] = some .directory) {name : String}
    {content : ByteArray} (hname : name ≠ "..") (hfile : held [name] = some (.file content)) :
    t'.load (target.child name) = .ok content := by
  refine (names_child (h.hasFolder hr hheld) hname).load rfl ?_
  rw [Path.place_child _ hname, h.inside, hfile]

/-- Changes were made only below one directory, which is still there. -/
structure Inside (t : FileTree) (f : Place) (t' : FileTree) : Prop where
  sound : t'.Sound
  lookup_place : t'.lookup f = some .directory
  outside : ∀ q, ¬ f <+: q → t'.lookup q = t.lookup q
  given : t.given ≤ t'.given

theorem Inside.refl (hs : t.Sound) (hf : t.lookup f = some .directory) : t.Inside f t :=
  ⟨hs, hf, fun _ _ => rfl, Nat.le_refl _⟩

theorem Inside.trans (h₁ : t.Inside f t₁) (h₂ : t₁.Inside f t₂) : t.Inside f t₂ :=
  ⟨h₂.sound, h₂.lookup_place, fun q hq => (h₂.outside q hq).trans (h₁.outside q hq),
    h₁.given.trans h₂.given⟩

/-- What is put into a directory is below it. -/
theorem Placed.inside_child {name : String} {e : Entry} (h : t.Placed (f ++ [name]) e t₁)
    (hf : t.lookup f = some .directory) : t.Inside f t₁ where
  sound := h.sound
  lookup_place := h.lookup_directory hf
  outside _ hq := h.lookup_of_ne fun heq => hq (heq ▸ List.prefix_append _ _)
  given := h.given

/-- Outside a private directory that is worked in, only directories on the way were made. -/
theorem Opened.lookup_of_inside {name : String} (ho : t.Opened work name t₁)
    (hi : t₁.Inside (work.place ++ [name]) t₂) {q : Place} (hq : ¬ work.place ++ [name] <+: q) :
    t₂.lookup q = if q ∈ work.track then some .directory else t.lookup q := by
  have hne : q ≠ work.place ++ [name] := by
    rintro rfl
    exact hq (List.prefix_refl _)
  rw [hi.outside q hq, ho.lookup]
  simp [hne]

/-- A destination can be published to while a private directory is in use. -/
structure Awaits (t : FileTree) (target : Path) (f : Place) : Prop where
  proper : target.isProper = true
  noFile : ∀ l ∈ target.trail, ∀ content, t.lookup l ≠ some (.file content)
  out : target.place ∉ target.trail
  atPlace : t.lookup target.place = none ∧ ¬ t.IsPending target.place ∨
    t.lookup target.place = some .directory
  below : ∀ q, target.place <+: q → q ≠ target.place → t.lookup q = none
  aside : f ∉ target.track
  apart : ¬ target.place <+: f

/-- A directory was published while a private one was in use. -/
structure Published (t : FileTree) (target : Path) (f : Place) (t' : FileTree) : Prop where
  sound : t'.Sound
  private_place : t'.lookup f = some .directory
  target_place : t'.lookup target.place = some .directory
  outside : ∀ q, ¬ f <+: q → ¬ target.place <+: q → t'.lookup q =
    if q ∈ target.trail then some .directory else t.lookup q

/-- Nothing stands below a vacant destination. -/
theorem Ready.below (h : t.Ready work target) {q : Place} (hq : target.place <+: q)
    (hne : q ≠ target.place) : t.lookup q = none := by
  rcases h.vacant with hnone | ⟨-, hempty⟩
  · exact h.sound.lookup_of_absent hnone target.place_ne_nil hq
  · obtain ⟨rest, rfl⟩ := hq
    cases rest with
    | nil => simp at hne
    | cons name rest =>
      have happend : target.place ++ name :: rest = target.place ++ [name] ++ rest := by simp
      rw [happend]
      exact h.sound.lookup_of_absent (hempty name) (by simp) (List.prefix_append _ _)

/-- A name that is given out is not on the way to the destination. -/
theorem Ready.notMem_track {name : String} (h : t.Ready work target)
    (ho : t.Opened work name t₁) : work.place ++ [name] ∉ target.track := fun hmem =>
  h.unguessed _ (.inr hmem) ho.pending ho.absent

/-- What is made in the working directory is not at the destination or below. -/
theorem Ready.not_above (h : t.Ready work target) {name : String}
    (hf : work.place ++ [name] ∉ target.track) : ¬ target.place <+: work.place ++ [name] := by
  intro habove
  rcases List.prefix_concat_iff.1 habove with heq | habove
  · exact hf (heq ▸ target.place_mem_track)
  · exact h.workApart (h.wayApart _ work.place_mem_track habove)

/-- The destination still waits after a private directory was made and worked in. -/
theorem Ready.awaits (h : t.Ready work target) {name : String} (ho : t.Opened work name t₁)
    (hi : t₁.Inside (work.place ++ [name]) t₂) : t₂.Awaits target (work.place ++ [name]) := by
  have haside := h.notMem_track ho
  have hapart := h.not_above haside
  have hnot : ∀ l ∈ target.track, ¬ work.place ++ [name] <+: l := fun l hl habove =>
    haside (Path.mem_track_of_above hl habove (by simp))
  have hlookup := fun q => ho.lookup_of_inside hi (q := q)
  refine ⟨h.proper, fun l hl content => ?_, h.out, ?_, fun q hq hne => ?_, haside, hapart⟩
  · rw [hlookup l (hnot l (Path.mem_track_of_mem_trail hl))]
    split
    · simp
    · exact h.noFile l hl content
  · rw [hlookup _ (hnot _ target.place_mem_track)]
    split
    · exact .inr rfl
    · rcases h.vacant with hnone | ⟨hdir, -⟩
      · exact .inl ⟨hnone, fun hpending => h.unguessed _ (.inr target.place_mem_track)
          (hpending.mono (ho.given.trans hi.given)) hnone⟩
      · exact .inr hdir
  · have hbelow : ¬ work.place ++ [name] <+: q := fun habove =>
      (List.prefix_or_prefix_of_prefix habove hq).elim
        (hnot _ target.place_mem_track) hapart
    rw [hlookup q hbelow, if_neg fun hmem => hne (h.wayApart q hmem hq)]
    exact h.below hq hne

namespace Awaits

theorem not_above (h : t.Awaits target f) (hne : f ≠ []) {l : Place} (hl : l ∈ target.track) :
    ¬ f <+: l := fun habove => h.aside (Path.mem_track_of_above hl habove hne)

/-- A name that is given out is not that of the destination. -/
theorem place_ne (h : t.Awaits target f) {folder : Path} {name : String}
    (ho : t.Opened folder name t₁) : target.place ≠ folder.place ++ [name] := by
  intro heq
  rcases h.atPlace with ⟨-, hnot⟩ | hdir
  · exact hnot (heq ▸ ho.pending)
  · rw [heq, ho.absent] at hdir
    cases hdir

/-- A directory beside the destination is not related to it. -/
theorem beside (h : t.Awaits target f) {name : String}
    (hne : target.place ≠ target.parent.place ++ [name]) :
    ¬ target.parent.place ++ [name] <+: target.place ∧
      ¬ target.place <+: target.parent.place ++ [name] := by
  obtain ⟨last, -, -, hlast⟩ := Path.place_eq_append h.proper
  rw [hlast] at hne ⊢
  exact ⟨fun habove => hne (habove.eq_of_length (by simp)).symm,
    fun habove => hne (habove.eq_of_length (by simp))⟩

/-- After work in the private directory and in a staged one the destination is still vacant. -/
theorem vacant (h : t.Awaits target f) (hne : f ≠ []) {name : String}
    (ho : t.Opened target.parent name t₁) (hname : target.place ≠ target.parent.place ++ [name])
    (hkeep : ∀ q, ¬ f <+: q → ¬ target.parent.place ++ [name] <+: q →
      t₂.lookup q = t₁.lookup q) : t₂.Vacant target := by
  have htrack := Path.track_parent (Path.names_ne_nil_of_isProper h.proper)
  obtain ⟨hstaged, hplace⟩ := h.beside hname
  have hlookup : ∀ q, target.place <+: q → t₂.lookup q = t.lookup q := by
    intro q hq
    have hf : ¬ f <+: q := fun habove =>
      (List.prefix_or_prefix_of_prefix habove hq).elim
        (h.not_above hne target.place_mem_track) h.apart
    have hs : ¬ target.parent.place ++ [name] <+: q := fun habove =>
      (List.prefix_or_prefix_of_prefix habove hq).elim hstaged hplace
    rw [hkeep q hf hs, ho.lookup, if_neg]
    rintro (rfl | hmem)
    · exact hplace hq
    · have := Path.mem_track_of_above hmem hq target.place_ne_nil
      rw [htrack] at this
      exact h.out this
  refine ⟨⟨h.proper, fun l hl => ?_⟩, h.out, ?_, fun q hq hqne => ?_⟩
  · rw [hkeep l (h.not_above hne (Path.mem_track_of_mem_trail hl))
      (ho.not_above_of_mem (htrack ▸ hl))]
    exact ho.hasFolder l (htrack ▸ hl)
  · rw [hlookup _ (List.prefix_refl _)]
    exact h.atPlace.imp And.left id
  · rw [hlookup q hq]
    exact h.below q hq hqne

/-- In a private directory nothing changes when another directory is opened. -/
theorem lookup_of_opened (h : t.Awaits target f) (hne : f ≠ []) {name : String}
    (ho : t.Opened target.parent name t₁) (hfs : ¬ f <+: target.parent.place ++ [name]) {q : Place}
    (hq : f <+: q) : t₁.lookup q = t.lookup q := by
  have htrack := Path.track_parent (Path.names_ne_nil_of_isProper h.proper)
  rw [ho.lookup, if_neg]
  rintro (rfl | hmem)
  · exact hfs hq
  · exact h.not_above hne (Path.mem_track_of_mem_trail (htrack ▸ hmem)) hq

end Awaits

end FileTree

/-! ## Sorters in private directories -/

namespace Sorter

open FileTree

variable {α : Type} [Ord α] [Record α] {s : Sorter α} {records : List α} {folder : Path}
  {name : String} {t t' : FileTree}

theorem OffRuns.inside (h : OffRuns folder name t t')
    (hf : t.lookup folder.place = some .directory) : t.Inside folder.place t' where
  sound := h.sound
  lookup_place := by rw [h.outside _ (by simp), hf]
  outside q hq := h.outside q fun i heq => hq (heq ▸ List.prefix_append _ _)
  given := h.given

/-- A sorter starts in a fresh directory. -/
theorem holds_create_of_opened {work : Path} {fresh : String} (hs : t.Sound)
    (hdots : fresh ≠ "..") (ho : t.Opened work fresh t') (name : String)
    (budget : Nat) : Holds (work.child fresh) name t'
      (create (work.child fresh) name budget : Sorter α) [] := by
  have hplace := Path.place_child work hdots
  refine holds_create ((hasFolder_child hdots).2 ⟨ho.hasFolder, ho.lookup_place⟩) (fun i => ?_) _
  rw [hplace, ho.lookup_below hs (List.prefix_append _ _) (by simp)]
  simp

/-- A sorter in a private directory does not notice that another directory is opened. -/
theorem Holds.of_opened {target : Path} {fresh : String} (h : Holds folder name t s records)
    (ha : t.Awaits target folder.place) (ho : t.Opened target.parent fresh t')
    (hfs : ¬ folder.place <+: target.parent.place ++ [fresh]) : Holds folder name t' s records :=
  h.of_lookup (h.hasFolder.mono fun _ => ho.lookup_directory) fun _ =>
    ha.lookup_of_opened folder.place_ne_nil ho hfs (List.prefix_append _ _)

end Sorter

/-! ## Private directories -/

namespace Workspace

open FileTree

variable {t t₁ : FileTree} {work : Path} {name : String} {α : Type} {a : α}

/-- **A private directory can be made wherever no file is in the way.** -/
theorem create_of_passable {settings : Settings} {stem : String} (hs : t.Sound)
    (hp : t.Passable settings.workPath) (hc : settings.compressRuns = false)
    (hstem : stem ∈ temporaryStems) :
    ∃ name t', (create settings stem).apply t = (.ok ⟨settings.workPath.child name⟩, t') ∧
      name ≠ ".." ∧ t.Opened settings.workPath name t' := by
  obtain ⟨k, t₁, t₂, hmake, hfresh, ho⟩ := Disk.open_of_passable hs hp hstem
  refine ⟨stem ++ toString k, t₂, ?_, append_toString_ne_dots stem k, ho⟩
  rw [create, Disk.apply_bind_of_ok hmake, Disk.apply_bind_of_ok (Disk.apply_change hfresh)]
  refine Disk.apply_undoing _ ?_
  rw [require, if_pos hc]
  rfl

theorem apply_guarding (w : Workspace) {body : Disk α} (h : body.apply t = (.ok a, t₁)) :
    (w.guarding body).apply t = (.ok a, t₁) := Disk.apply_undoing _ h

/-- A step that succeeds is followed by the removal of the private directory. -/
theorem consume_of_ok {body : Disk α} (hname : name ≠ "..") (hbody : body.apply t = (.ok a, t₁))
    (hw : t₁.HasFolder work) (hf : t₁.lookup (work.place ++ [name]) = some .directory)
    (hout : work.place ++ [name] ∉ work.track) :
    ∃ t', (consume ⟨work.child name⟩ body).apply t = (.ok a, t') ∧
      ∀ q, t'.lookup q = if work.place ++ [name] <+: q then none else t₁.lookup q := by
  have hplace := Path.place_child work hname
  obtain ⟨t', hclose, hlookup⟩ := Disk.removeAll_of_names (names_child hw hname)
    (by rw [hplace, hf]) (by rwa [hplace, Path.trail_child])
  rw [hplace] at hlookup
  refine ⟨t', ?_, hlookup⟩
  rw [consume, Disk.apply_bind_of_ok (apply_guarding _ hbody), close,
    Disk.apply_bind_of_ok hclose]
  rfl

end Workspace

/-! ## Staging -/

namespace Disk

open FileTree

variable {t : FileTree} {target : Destination} {f : Place} {α : Type}

/-- An operation fills any fresh directory beside a destination while a private directory is in
use, and changes nothing outside of both. `R` relates its answer to what it put there. -/
def FillsBeside (t : FileTree) (target : Destination) (f : Place) (fill : Destination → Disk α)
    (R : α → (Place → Option Entry) → Prop) : Prop :=
  ∀ name t₁, name ≠ ".." → t.Opened target.path.parent name t₁ →
    ¬ f <+: target.path.parent.place ++ [name] → ¬ target.path.parent.place ++ [name] <+: f →
    ∃ a t₂, (fill ⟨target.path.parent.child name, target.text⟩).apply t₁ = (.ok a, t₂) ∧
      t₂.Sound ∧ t₂.lookup f = some .directory ∧
      t₂.lookup (target.path.parent.place ++ [name]) = some .directory ∧
      (∀ q, ¬ f <+: q → ¬ target.path.parent.place ++ [name] <+: q →
        t₂.lookup q = t₁.lookup q) ∧
      R a fun rest => t₂.lookup (target.path.parent.place ++ [name] ++ rest)

/-- Staging goes on in a fresh directory beside the destination. -/
theorem apply_staged (hs : t.Sound) (hp : t.Passable target.path.parent)
    (fill : Destination → Disk α) :
    ∃ name t₁, name ≠ ".." ∧ t.Opened target.path.parent name t₁ ∧
      (staged target fill).apply t = (undoing (do
          let a ← fill ⟨target.path.parent.child name, target.text⟩
          publish (target.path.parent.child name) target
          return a)
        (removeAll (target.path.parent.child name))).apply t₁ := by
  obtain ⟨k, t₀, t₁, hmake, hfresh, ho⟩ :=
    open_of_passable hs hp (show ".staging-" ∈ temporaryStems by decide)
  refine ⟨".staging-" ++ toString k, t₁, append_toString_ne_dots ".staging-" k, ho, ?_⟩
  rw [staged, makeParents, apply_bind_of_ok hmake, apply_bind_of_ok (apply_change hfresh)]

/-- **What is staged while a private directory is in use is published.** -/
theorem staged_of_awaits {fill : Destination → Disk α} {R : α → (Place → Option Entry) → Prop}
    (hs : t.Sound) (hf : t.lookup f = some .directory) (hne : f ≠ [])
    (ha : t.Awaits target.path f) (hfill : FillsBeside t target f fill R) :
    ∃ a t', (staged target fill).apply t = (.ok a, t') ∧ t.Published target.path f t' ∧
      R a fun rest => t'.lookup (target.path.place ++ rest) := by
  have htrack := Path.track_parent (Path.names_ne_nil_of_isProper ha.proper)
  obtain ⟨name, t₁, hdots, ho, happly⟩ :=
    apply_staged hs (passable_parent ha.noFile) fill
  have hname := ha.place_ne ho
  obtain ⟨hstaged, hplace⟩ := ha.beside hname
  -- neither the private directory nor the staged one is in the other
  have hfs : ¬ f <+: target.path.parent.place ++ [name] := by
    intro habove
    rcases List.prefix_concat_iff.1 habove with rfl | habove
    · rw [ho.absent] at hf
      cases hf
    · exact ha.not_above hne (Path.mem_track_of_mem_trail
        (htrack ▸ target.path.parent.place_mem_track)) habove
  have hsf : ¬ target.path.parent.place ++ [name] <+: f := fun habove => by
    rw [hs.lookup_of_absent ho.absent (by simp) habove] at hf
    cases hf
  obtain ⟨a, t₂, hrun, hs₂, hf₂, hdir₂, hkeep, hR⟩ := hfill name t₁ hdots ho hfs hsf
  obtain ⟨t', hpublish, hs', hmoved⟩ :=
    publish_of_vacant hs₂ (ha.vacant hne ho hname hkeep) hdots hdir₂ hname ho.out
  refine ⟨a, t', ?_, ⟨hs', ?_, ?_, fun q hqf hqt => ?_⟩, ?_⟩
  · rw [happly]
    refine apply_undoing _ ?_
    rw [apply_bind_of_ok hrun, apply_bind_of_ok hpublish]
    rfl
  · rw [hmoved.others f hsf ha.apart, hf₂]
  · have := hmoved.inside []
    rwa [List.append_nil, List.append_nil, hdir₂] at this
  · by_cases hqs : target.path.parent.place ++ [name] <+: q
    · have hmem : q ∉ target.path.trail := fun hmem => ho.not_above_of_mem (htrack ▸ hmem) hqs
      rw [hmoved.gone q hqs hqt, if_neg hmem, hs.lookup_of_absent ho.absent (by simp) hqs]
    · have hqne : q ≠ target.path.parent.place ++ [name] := by
        rintro rfl
        exact hqs (List.prefix_refl _)
      rw [hmoved.others q hqs hqt, hkeep q hqf hqs, ho.lookup, htrack]
      simp [hqne]
  · have hinside : (fun rest => t'.lookup (target.path.place ++ rest)) =
        fun rest => t₂.lookup (target.path.parent.place ++ [name] ++ rest) :=
      funext hmoved.inside
    rwa [hinside]

end Disk

/-- **After a build nothing is left of its private directory.** -/
theorem Workspace.consume_of_published {t t₁ t₂ t₃ : FileTree} {work target : Path} {name : String}
    {α : Type} {a : α} {body : Disk α} (h : t.Ready work target) (hname : name ≠ "..")
    (ho : t.Opened work name t₁) (hi : t₁.Inside (work.place ++ [name]) t₂)
    (hbody : body.apply t₂ = (.ok a, t₃))
    (hp : t₂.Published target (work.place ++ [name]) t₃) :
    ∃ t', (consume ⟨work.child name⟩ body).apply t₂ = (.ok a, t') ∧
      t.Built work target (fun rest => t₃.lookup (target.place ++ rest)) t' := by
  have ha := h.awaits ho hi
  have hlookup := fun q => ho.lookup_of_inside hi (q := q)
  have hw : t₃.HasFolder work := fun l hl => by
    by_cases habove : target.place <+: l
    · rw [h.wayApart l hl habove, hp.target_place]
    · rw [hp.outside l (ho.not_above_of_mem hl) habove, hlookup l (ho.not_above_of_mem hl)]
      simp [hl]
  obtain ⟨t', hrun, hlookup'⟩ := consume_of_ok hname hbody hw hp.private_place ho.out
  refine ⟨t', hrun, hp.sound.of_pruned hlookup', fun rest => ?_, fun q hq => ?_⟩
  · have hnot : ¬ work.place ++ [name] <+: target.place ++ rest := fun habove =>
      (List.prefix_or_prefix_of_prefix habove (List.prefix_append _ _)).elim
        (ha.not_above (by simp) target.place_mem_track) ha.apart
    rw [hlookup', if_neg hnot]
  · rw [hlookup']
    by_cases hqf : work.place ++ [name] <+: q
    · have hwork : q ∉ work.track := fun hmem => ho.not_above_of_mem hmem hqf
      have htrail : q ∉ target.trail := fun hmem =>
        ha.not_above (by simp) (Path.mem_track_of_mem_trail hmem) hqf
      simp [hqf, hwork, htrail, h.sound.lookup_of_absent ho.absent (by simp) hqf]
    · rw [if_neg hqf, hp.outside q hqf hq, hlookup q hqf]
      by_cases htrail : q ∈ target.trail <;> simp [htrail]

end TripleStore
