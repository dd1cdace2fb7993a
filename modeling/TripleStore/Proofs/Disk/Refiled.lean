import Mathlib.Data.Set.Insert
import TripleStore.Proofs.Disk.Effect
import TripleStore.Proofs.Disk.Publish

/-!
# Trees whose files change

Where only files change, directories and paths to them stay as they are (`FileTree.Refiled`).
Replacing a file changes this file and what making its content changes
(`Disk.refiled_of_replaceFile`).
-/

namespace TripleStore

namespace FileTree

variable {t t₁ t' : FileTree} {places more : Set Place} {l : Place} {p : Path}

/-- Only files changed, at some places. -/
structure Refiled (t : FileTree) (places : Set Place) (t' : FileTree) : Prop where
  sound : t'.Sound
  directory : ∀ q, t'.lookup q = some .directory ↔ t.lookup q = some .directory
  outside : ∀ q, q ∉ places → t'.lookup q = t.lookup q

namespace Refiled

theorem refl (hs : t.Sound) : t.Refiled places t := ⟨hs, fun _ => Iff.rfl, fun _ _ => rfl⟩

theorem mono (h : t.Refiled places t') (hsub : places ⊆ more) : t.Refiled more t' :=
  ⟨h.sound, h.directory, fun q hq => h.outside q fun hmem => hq (hsub hmem)⟩

theorem trans (h : t.Refiled places t₁) (h' : t₁.Refiled places t') : t.Refiled places t' :=
  ⟨h'.sound, fun q => (h'.directory q).trans (h.directory q),
    fun q hq => (h'.outside q hq).trans (h.outside q hq)⟩

theorem of_placed {content : ByteArray} (h : t.Placed l (.file content) t') (hl : l ∈ places) :
    t.Refiled places t' where
  sound := h.sound
  directory _ := ⟨fun hdir => not_not.1 fun hne => h.lookup_ne_directory hne hdir,
    h.lookup_directory⟩
  outside _ hq := h.lookup_of_ne fun heq => hq (heq ▸ hl)

theorem of_drop {content : ByteArray} (hs : t.Sound) (hroot : l.isRoot = false) (hne : l ≠ [])
    (hfile : t.lookup l = some (.file content)) (hl : l ∈ places) :
    t.Refiled places (t.drop l) where
  sound := hs.drop hroot (hs.lookup_append (by simp [hfile]) hne)
  directory q := by
    rw [lookup_drop hroot]
    split
    · simp [‹q = l›, hfile]
    · rfl
  outside q hq := by
    rw [lookup_drop hroot, if_neg]
    rintro rfl
    exact hq hl

theorem hasFolder (h : t.Refiled places t') (hf : t.HasFolder p) : t'.HasFolder p :=
  hf.mono fun q => (h.directory q).2

theorem names (h : t.Refiled places t') (hn : t.Names p) : t'.Names p :=
  ⟨hn.proper, fun l hl => (h.directory l).2 (hn.leads l hl)⟩

end Refiled

end FileTree

/-! ## Replacing a file -/

namespace Disk

variable {t t' : FileTree} {p : Path} {content : Disk ByteArray}

/-- **Replacing a file changes nothing but this file and what making its content changes.** -/
theorem refiled_of_replaceFile (hs : t.Sound) (hp : t.Names p) (hend : p.ending = .name)
    (hold : t.lookup p.place ≠ some .directory)
    (hrun : (replaceFile p content).apply t = (.ok (), t')) :
    ∃ (k : Nat) (t₁ t₂ : FileTree) (bytes : ByteArray),
      t.Placed (p.parent.place ++ [".file-" ++ toString k]) (.file ByteArray.empty) t₁ ∧
      content.apply t₁ = (.ok bytes, t₂) ∧
      ∀ places, p.parent.place ++ [".file-" ++ toString k] ∉ places → t₁.Refiled places t₂ →
        t.Refiled (insert p.place places) t' ∧
        ∀ q, q ≠ p.place → q ≠ p.parent.place ++ [".file-" ++ toString k] →
          t'.lookup q = t₂.lookup q := by
  obtain ⟨k, t₁, hfresh, -, habsent, hplaced⟩ :=
    hp.hasFolder_parent.makeFresh hs ".file-" (.file ByteArray.empty)
  have hdots := FileTree.append_toString_ne_dots ".file-" k
  obtain ⟨bytes, t₂, hcontent⟩ : ∃ bytes t₂, content.apply t₁ = (.ok bytes, t₂) := by
    have hbody := hrun
    rw [replaceFile, apply_bind_of_ok (apply_change hfresh)] at hbody
    rcases undoing_cases hbody with ⟨_, -, hdone⟩ | ⟨e, _, herror, -⟩
    · obtain ⟨bytes, t₂, hcontent, -⟩ := apply_bind_eq_ok.1 hdone
      exact ⟨bytes, t₂, hcontent⟩
    · cases herror
  refine ⟨k, t₁, t₂, bytes, hplaced, hcontent, fun places hout hrefiled => ?_⟩
  have hheld : t₂.lookup (p.parent.place ++ [".file-" ++ toString k]) =
      some (.file ByteArray.empty) := by
    rw [hrefiled.outside _ hout, hplaced.lookup_self]
  have hold₂ : t₂.lookup p.place ≠ some .directory := fun hdir =>
    hplaced.lookup_ne_directory hold ((hrefiled.directory _).1 hdir)
  obtain ⟨t₃, hreplace, hs', -, hlookup⟩ := replaceFile_of_content
    (hrefiled.names (hplaced.names hp)) hend hdots hfresh hcontent hrefiled.sound hheld hold₂
  obtain ⟨-, rfl⟩ := Prod.mk.inj (hrun.symm.trans hreplace)
  refine ⟨⟨hs', fun q => ?_, fun q hq => ?_⟩, fun q hqp hqf => ?_⟩
  · rw [hlookup]
    split
    · simp [‹q = p.place›, hold]
    · split
      · rw [‹q = p.parent.place ++ _›, habsent]
      · rw [hrefiled.directory, hplaced.lookup_of_ne ‹_›]
  · obtain ⟨hqp, hqplaces⟩ := not_or.1 hq
    rw [hlookup, if_neg hqp]
    split
    · rw [‹q = _›, habsent]
    · rw [hrefiled.outside q hqplaces, hplaced.lookup_of_ne ‹_›]
  · rw [hlookup, if_neg hqp, if_neg hqf]

/-- A file is not replaced if its content cannot be made. -/
theorem fst_apply_replaceFile {e : StoreError} (hs : t.Sound) (hp : t.Names p)
    (h : ∀ (k : Nat) t₁,
      t.Placed (p.parent.place ++ [".file-" ++ toString k]) (.file ByteArray.empty) t₁ →
        (content.apply t₁).1 = .error e) : ((replaceFile p content).apply t).1 = .error e := by
  obtain ⟨k, t₁, hfresh, -, -, hplaced⟩ :=
    hp.hasFolder_parent.makeFresh hs ".file-" (.file ByteArray.empty)
  rw [replaceFile, apply_bind_of_ok (apply_change hfresh), fst_apply_undoing]
  exact apply_bind_of_error (h k t₁ hplaced)

end Disk

end TripleStore
