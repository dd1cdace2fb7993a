import TripleStore.Proofs.Dictionary.RoundTrip
import TripleStore.Proofs.Disk.Outcome

/-!
# Files of dictionaries

A writer that finishes leaves its file at its destination, and it finishes wherever a file may go
(`DictionaryWriter.writes_file`). So strictly ascending strings can be written to every such place
(`Dictionary.writeFile_of_fileOf`).
-/

namespace TripleStore

namespace FileTree

variable {t : FileTree} {p : Path} {name : String}

/-- A file may go to a path: it can be followed, it ends in a name, and no directory is there. -/
structure AllowsFile (t : FileTree) (p : Path) : Prop where
  sound : t.Sound
  names : t.Names p
  ending : p.ending = .name
  free : t.lookup p.place ≠ some .directory

/-- A file may go into a folder where no directory has its name. -/
theorem allowsFile_child (hs : t.Sound) (hf : t.HasFolder p) (hname : name ≠ "..")
    (hfree : t.lookup (p.place ++ [name]) ≠ some .directory) : t.AllowsFile (p.child name) where
  sound := hs
  names := names_child hf hname
  ending := rfl
  free := by rwa [Path.place_child p hname]

/-- Files may go into the roots of an empty tree. -/
theorem allowsFile_empty (hproper : p.isProper = true) (hend : p.ending = .name)
    (hroots : ∀ l ∈ p.trail, l.isRoot = true) : empty.AllowsFile p where
  sound := sound_empty
  names := ⟨hproper, fun l hl => lookup_of_isRoot (hroots l hl)⟩
  ending := hend
  free := by simp [lookup_empty, Path.isRoot_place hproper]

end FileTree

namespace DictionaryWriter

variable {w : DictionaryWriter} {target : Path} {t t' : FileTree}

/-- A writer can finish wherever a file may go, and whenever it finishes it answers this number and
leaves this file at its destination. -/
structure Writes (w : DictionaryWriter) (count : Nat) (file : ByteArray) : Prop where
  finishes : ∀ (t : FileTree) target, t.AllowsFile target →
    ∃ t', (w.finish target).apply t = (.ok count, t')
  leaves : ∀ (t t' : FileTree) target n, (w.finish target).apply t = (.ok n, t') →
    n = count ∧ t'.load target = .ok file

/-- **A writer finishes where a file may go**, and changes nothing else. -/
theorem finish_of_allowsFile (h : t.AllowsFile target) (w : DictionaryWriter) :
    ∃ t', (w.finish target).apply t = (.ok w.count, t') ∧
      t.Placed target.place (.file w.file) t' := by
  obtain ⟨t', hreplace, hplaced⟩ := Disk.replaceFile_pure h.sound h.names h.ending h.free w.file
  refine ⟨t', ?_, hplaced⟩
  rw [finish, Disk.apply_bind_of_ok hreplace]
  rfl

/-- **What a writer finished is read at its destination.** -/
theorem load_of_finish {n : Nat} (hrun : (w.finish target).apply t = (.ok n, t')) :
    n = w.count ∧ t'.load target = .ok w.file := by
  obtain ⟨_, t₁, hreplace, hlast⟩ := Disk.apply_bind_eq_ok.1 hrun
  obtain ⟨hcount, rfl⟩ := Prod.mk.inj hlast
  obtain ⟨t₂, t₃, file, hcontent, hload⟩ := Disk.load_of_replaceFile hreplace
  obtain rfl : w.file = file := Except.ok.inj (Prod.mk.inj hcontent).1
  exact ⟨(Except.ok.inj hcount).symm, hload⟩

theorem writes_file (w : DictionaryWriter) : w.Writes w.count w.file where
  finishes _ _ h := by
    obtain ⟨t', hrun, -⟩ := finish_of_allowsFile h w
    exact ⟨t', hrun⟩
  leaves _ _ _ _ := load_of_finish

end DictionaryWriter

namespace Dictionary

variable {strings : List ByteArray} {flags aux : UInt16} {file : ByteArray} {n : Nat}
  {t : FileTree} {target : Path}

theorem writeFile_eq (strings : List ByteArray) (flags aux : UInt16) (target : Path) :
    writeFile strings flags aux target = (do
      let made ← Disk.ofResult (fileOf strings flags aux)
      Disk.replaceFile target (pure made.1)
      return made.2) := by
  rw [writeFile, fileOf]
  cases (DictionaryWriter.create flags aux).pushAll strings <;> rfl

/-- **The file of a dictionary can be written where a file may go**, and nothing else changes. -/
theorem writeFile_of_fileOf (hfile : fileOf strings flags aux = .ok (file, n))
    (h : t.AllowsFile target) :
    ∃ t', (writeFile strings flags aux target).apply t = (.ok n, t') ∧
      t.Placed target.place (.file file) t' := by
  obtain ⟨w, hpush, hw⟩ := bind_eq_ok.1 hfile
  obtain ⟨rfl, rfl⟩ := Prod.mk.inj (Except.ok.inj hw)
  obtain ⟨t', hfinish, hplaced⟩ := DictionaryWriter.finish_of_allowsFile h w
  refine ⟨t', ?_, hplaced⟩
  rw [writeFile, hpush]
  exact hfinish

end Dictionary

end TripleStore
