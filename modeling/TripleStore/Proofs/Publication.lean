import TripleStore.Proofs.Disk.Outcome

/-!
# All or nothing

An operation that publishes either leaves its destination as it was or puts there all that it is
for; beside the destination it only makes directories (`AllOrNothing`). Staging is all or nothing as
long as filling the staged directory only makes directories outside of it.
-/

namespace TripleStore

/-! ## Contents of places -/

/-- What stands at a place and below it. -/
abbrev Contents := Place → Option Entry

namespace Contents

/-- Nothing, or an empty directory. -/
structure IsVacant (c : Contents) : Prop where
  atPlace : c [] = none ∨ c [] = some .directory
  below : ∀ rest, rest ≠ [] → c rest = none

/-- No directory, so that a file may go there. -/
def IsFree (c : Contents) : Prop := c [] ≠ some .directory

/-- Just a file. -/
structure IsFile (content : ByteArray) (c : Contents) : Prop where
  atPlace : c [] = some (.file content)
  below : ∀ rest, rest ≠ [] → c rest = none

/-- Exactly these directories and files. -/
structure IsJust (directories files : List Place) (c : Contents) : Prop where
  directory : ∀ l ∈ directories, c l = some .directory
  file : ∀ l ∈ files, ∃ content, c l = some (.file content)
  nothing : ∀ l, l ∉ directories → l ∉ files → c l = none

/-- Nothing but a directory of these files. -/
abbrev IsFolderOf (names : List String) (c : Contents) : Prop := c.IsJust [[]] (names.map ([·]))

theorem IsJust.ne_none {directories files : List Place} {c : Contents} {l : Place}
    (h : c.IsJust directories files) (hl : l ∈ directories ++ files) : c l ≠ none := by
  rcases List.mem_append.1 hl with hl | hl
  · rw [h.directory l hl]
    simp
  · obtain ⟨content, hfile⟩ := h.file l hl
    rw [hfile]
    simp

end Contents

namespace FileTree

variable {t u t' : FileTree} {f k q : Place} {folder : Path} {name : String}

/-- What stands at a place of a tree and below it. -/
def contentsAt (t : FileTree) (l : Place) : Contents := fun rest => t.lookup (l ++ rest)

theorem contentsAt_eq {l : Place} (h : ∀ q, l <+: q → t'.lookup q = t.lookup q) :
    t'.contentsAt l = t.contentsAt l := funext fun rest => h _ (List.prefix_append l rest)

theorem Vacant.contentsAt {p : Path} (h : t.Vacant p) : (t.contentsAt p.place).IsVacant where
  atPlace := by simpa [FileTree.contentsAt] using h.atPlace
  below rest hrest := h.below _ (List.prefix_append _ _) (by simpa using hrest)

end FileTree

/-! ## All or nothing -/

open FileTree

variable {α : Type} {before : Contents → Prop} {after : α → Contents → Prop}
  {t u u₁ u₂ t' : FileTree} {target : Place} {made more : List Place}

/-- **A run is all or nothing.** If it fails, its destination holds what it held before; if it
succeeds, the destination was as `before` says, and holds what `after` says of the answer. Elsewhere
nothing changes but that directories are made at some places where nothing stood. -/
structure AllOrNothing (before : Contents → Prop) (after : α → Contents → Prop) (t : FileTree)
    (target : Place) (made : List Place) (run : Result α × FileTree) : Prop where
  sound : run.2.Sound
  failed : ∀ e, run.1 = .error e → run.2.contentsAt target = t.contentsAt target
  finished : ∀ a, run.1 = .ok a → before (t.contentsAt target) ∧ after a (run.2.contentsAt target)
  beside : t.MadeOutside target made run.2

namespace AllOrNothing

/-- A failure after which only directories were made. -/
theorem of_made {r : Result α} (hr : ∃ e, r = .error e) (h : t.Made made t')
    (hout : ∀ q ∈ made, ¬ target <+: q) : AllOrNothing before after t target made (r, t') where
  sound := h.sound
  failed _ _ := contentsAt_eq fun q hq => h.lookup_of_notMem fun hmem => hout q hmem hq
  finished a ha := by
    obtain ⟨e, rfl⟩ := hr
    cases ha
  beside := h.outside target

/-- Directories may have been made before. -/
theorem of_made_before {run : Result α × FileTree} (h : t.Made made u)
    (hrun : AllOrNothing before after u target more run) (hout : ∀ q ∈ made, ¬ target <+: q) :
    AllOrNothing before after t target (made ++ more) run := by
  have hcontents : u.contentsAt target = t.contentsAt target :=
    contentsAt_eq fun q hq => h.lookup_of_notMem fun hmem => hout q hmem hq
  refine ⟨hrun.sound, fun e he => (hrun.failed e he).trans hcontents, fun a ha => ?_,
    (h.outside target).trans hrun.beside⟩
  rw [← hcontents]
  exact hrun.finished a ha

/-- Only the places of the tree count. -/
theorem congr {r : Result α} (h : AllOrNothing before after t target made (r, u))
    (hlookup : ∀ q, t'.lookup q = u.lookup q) (hs : t'.Sound) :
    AllOrNothing before after t target made (r, t') := by
  have hcontents : t'.contentsAt target = u.contentsAt target :=
    contentsAt_eq fun q _ => hlookup q
  refine ⟨hs, fun e he => hcontents.trans (h.failed e he), fun a ha => ?_, fun q hq => ?_⟩
  · change before _ ∧ after a (t'.contentsAt target)
    rw [hcontents]
    exact h.finished a ha
  · rw [hlookup]
    exact h.beside q hq

theorem mono {run : Result α × FileTree} {after' : α → Contents → Prop}
    (h : AllOrNothing before after t target made run) (hsub : made ⊆ more)
    (hafter : ∀ a c, after a c → after' a c) :
    AllOrNothing before after' t target more run where
  sound := h.sound
  failed := h.failed
  finished a ha := (h.finished a ha).imp_right (hafter a _)
  beside := h.beside.mono fun _ hq _ => hsub hq

variable {path : Path} {name : String}

/-- **What was staged and published is there, and only directories were made on the way.** -/
theorem of_moved {a : α} (hs : u.Sound) (hproper : path.isProper = true)
    (habsent : u.lookup (path.parent.place ++ [name]) = none)
    (hbeside : u.MadeOutside (path.parent.place ++ [name]) made u₂)
    (hmade : ∀ q ∈ made, ¬ path.place <+: q) (hne : path.place ≠ path.parent.place ++ [name])
    (hvacant : (u₂.contentsAt path.place).IsVacant)
    (hmoved : Moved u₂ (path.parent.place ++ [name]) path.place t') (hs' : t'.Sound)
    (hafter : after a (u₂.contentsAt (path.parent.place ++ [name]))) :
    AllOrNothing Contents.IsVacant after u path.place made (.ok a, t') := by
  obtain ⟨last, -, -, hlast⟩ := Path.place_eq_append hproper
  have hstaged : ∀ q, path.place <+: q → ¬ path.parent.place ++ [name] <+: q := by
    intro q hq habove
    rw [hlast] at hq hne
    rcases List.prefix_or_prefix_of_prefix habove hq with h | h
    · exact hne (h.eq_of_length (by simp)).symm
    · exact hne (h.eq_of_length (by simp))
  have hcontents : u₂.contentsAt path.place = u.contentsAt path.place :=
    contentsAt_eq fun q hq => hbeside.lookup_of_notMem (hstaged q hq) fun hmem => hmade q hmem hq
  have hpublished : t'.contentsAt path.place = u₂.contentsAt (path.parent.place ++ [name]) :=
    funext hmoved.inside
  refine ⟨hs', fun _ h => (nomatch h), fun b hb => ?_, fun q hq => ?_⟩
  · obtain rfl := Except.ok.inj hb
    rw [← hcontents, hpublished]
    exact ⟨hvacant, hafter⟩
  · by_cases hbelow : path.parent.place ++ [name] <+: q
    · exact .inl (by rw [hmoved.gone q hbelow hq, hs.lookup_of_absent habsent (by simp) hbelow])
    · rw [hmoved.others q hbelow hq]
      exact hbeside q hbelow

end AllOrNothing

/-! ## Staging -/

namespace Disk

variable {dest : Destination} {fill : Destination → Disk α} {directories files : List Place}
  {f : Place}

/-- The places on the way to a destination are not at the destination or below. -/
theorem not_above_of_mem_trail {path : Path} (hout : path.place ∉ path.trail) {q : Place}
    (hq : q ∈ path.trail) : ¬ path.place <+: q := fun habove =>
  hout (Path.mem_trail_of_above hq habove path.place_ne_nil)

/-- **Staging is all or nothing**, if filling makes only directories outside of the staged one. -/
theorem allOrNothing_staged (hs : t.Sound) (hout : dest.path.place ∉ dest.path.trail)
    (hmade : ∀ q ∈ made, ¬ dest.path.place <+: q)
    (hinner : ∃ inner, [inner] ∈ directories ++ files)
    (hfill : ∀ name t₁ r₂ t₂, Staging t dest fill name t₁ r₂ t₂ → t₂.Sound ∧
      t₁.MadeOutside (dest.path.parent.place ++ [name]) made t₂ ∧
      t₂.lookup (dest.path.parent.place ++ [name]) = some .directory ∧ ((∃ a, r₂ = .ok a) →
        (t₂.contentsAt (dest.path.parent.place ++ [name])).IsJust directories files)) :
    AllOrNothing Contents.IsVacant (fun _ => Contents.IsJust directories files) t dest.path.place
      (dest.path.trail ++ made) ((staged dest fill).apply t) := by
  have hpaths : ∀ q ∈ dest.path.trail ++ made, ¬ dest.path.place <+: q := fun q hq =>
    (List.mem_append.1 hq).elim (not_above_of_mem_trail hout) (hmade q)
  have hfilled : ∀ name t₁ r₂ t₂, Staging t dest fill name t₁ r₂ t₂ → t₂.Sound ∧
      t₂.HasFolder (dest.path.parent.child name) ∧ ((∃ a, r₂ = .ok a) →
        ∃ inner, t₂.lookup (dest.path.parent.place ++ [name] ++ [inner]) ≠ none) := by
    intro name t₁ r₂ t₂ hst
    obtain ⟨hs₂, hkeep, hdir, hjust⟩ := hfill name t₁ r₂ t₂ hst
    refine ⟨hs₂, (hasFolder_child hst.dots).2 ⟨fun l hl => ?_, hdir⟩, fun hok => ?_⟩
    · exact hkeep.lookup_of_some (hst.opened.not_above_of_mem hl) (hst.opened.hasFolder l hl)
    · obtain ⟨inner, hmem⟩ := hinner
      exact ⟨inner, (hjust hok).ne_none hmem⟩
  rcases hrun : (staged dest fill).apply t with ⟨r, t'⟩
  rcases staged_cases hs hout hfilled hrun with
    ⟨hr, hm⟩ | ⟨name, t₁, r₂, t₂, hst, hs', hcases⟩
  · exact .of_made hr (hm.mono fun q hq _ => List.mem_append_left _ hq) hpaths
  obtain ⟨-, hkeep, -, hjust⟩ := hfill name t₁ r₂ t₂ hst
  have hbeside : t.MadeOutside (dest.path.parent.place ++ [name]) (dest.path.trail ++ made) t₂ :=
    ((hst.opened.madeOutside hst.noFile).mono fun _ => mem_trail_of_absent).trans hkeep
  rcases hcases with ⟨hr, hlookup⟩ | ⟨⟨a, rfl⟩, rfl, hv, hne, hmoved⟩
  · exact .of_made hr (.of_gone hs hst.opened.absent (by simp) hbeside hs' hlookup) hpaths
  · exact .of_moved hs hv.names.proper hst.opened.absent hbeside hpaths hne hv.contentsAt hmoved hs'
      (hjust ⟨a, rfl⟩)

end Disk

end TripleStore
