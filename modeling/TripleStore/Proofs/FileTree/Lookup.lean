import Mathlib.Data.List.Basic
import TripleStore.Proofs.FileTree.Place
import TripleStore.Result

/-!
# Following paths in a tree

A path can be followed if every place of its trail is a directory (`FileTree.Leads`), and files can
stand in it if its own place is one too (`FileTree.HasFolder`). Then `locate`, `folder`, `find` and
the readers answer what the tree holds at its place.
-/

namespace TripleStore.FileTree

variable {t : FileTree} {p : Path} {l : Place} {e : Entry} {name : String}

theorem lookup_of_isRoot (h : l.isRoot = true) : t.lookup l = some .directory := by
  rw [lookup, if_pos h]

theorem lookup_eq (h : l.isRoot = false) : t.lookup l = t.entries[l]? := by
  rw [lookup, if_neg (by simp [h])]

theorem lookup_start (t : FileTree) (p : Path) : t.lookup (Place.start p) = some .directory := by
  apply lookup_of_isRoot
  unfold Place.start
  split <;> rfl

/-! ## Directories on the way -/

/-- Every name of the path can be followed. -/
def Leads (t : FileTree) (p : Path) : Prop := ∀ l ∈ p.trail, t.lookup l = some .directory

/-- Files can stand in the path. -/
def HasFolder (t : FileTree) (p : Path) : Prop := ∀ l ∈ p.track, t.lookup l = some .directory

theorem hasFolder_iff : t.HasFolder p ↔ t.Leads p ∧ t.lookup p.place = some .directory := by
  simp only [HasFolder, Leads, Path.track, List.mem_append, List.mem_singleton]
  constructor
  · intro h
    exact ⟨fun l hl => h l (.inl hl), h _ (.inr rfl)⟩
  · rintro ⟨h, hplace⟩ l (hl | rfl)
    · exact h l hl
    · exact hplace

theorem HasFolder.lookup_place (h : t.HasFolder p) : t.lookup p.place = some .directory :=
  (hasFolder_iff.1 h).2

theorem leads_child : t.Leads (p.child name) ↔ t.HasFolder p := by
  rw [Leads, Path.trail_child, HasFolder]

theorem hasFolder_child (hname : name ≠ "..") :
    t.HasFolder (p.child name) ↔
      t.HasFolder p ∧ t.lookup (p.place ++ [name]) = some .directory := by
  rw [hasFolder_iff, leads_child, Path.place_child p hname]

theorem hasFolder_parent (h : p.names ≠ []) : t.HasFolder p.parent ↔ t.Leads p := by
  rw [HasFolder, Path.track_parent h, Leads]

theorem HasFolder.mono {t' : FileTree} (h : t.HasFolder p)
    (hkeep : ∀ q, t.lookup q = some .directory → t'.lookup q = some .directory) : t'.HasFolder p :=
  fun l hl => hkeep l (h l hl)

/-- Every place above a directory that a path leads to is one. -/
theorem HasFolder.lookup_above (h : t.HasFolder p) (hl : l <+: p.place) (hne : l ≠ []) :
    t.lookup l = some .directory :=
  h l (Path.mem_track_of_above p.place_mem_track hl hne)

theorem enter_eq_ok {u : Unit} : t.enter l = .ok u ↔ t.lookup l = some .directory := by
  unfold enter
  split <;> simp_all

theorem walk_eq_ok {names : List String} {q : Place} :
    t.walk l names = .ok q ↔
      (∀ a ∈ Path.trailFrom l names, t.lookup a = some .directory) ∧
        q = names.foldl Place.follow l := by
  induction names generalizing l with
  | nil => simp [walk, Path.trailFrom, eq_comm]
  | cons name names ih =>
    rw [walk, bind_eq_ok]
    simp [enter_eq_ok, ih, Path.trailFrom, and_assoc]

/-- A path is located at its place. -/
theorem locate_eq_ok :
    t.locate p = .ok l ↔
      (p.isBlank = false ∧ t.Leads p ∧ (p.ending = .dot → t.lookup p.place = some .directory)) ∧
        l = p.place := by
  unfold locate
  cases hblank : p.isBlank with
  | true => simp [bind, Except.bind, throw, throwThe, MonadExceptOf.throw]
  | false =>
    simp only [Bool.false_eq_true, if_false, bind_eq_ok, walk_eq_ok]
    by_cases hdot : p.ending = .dot
    · simp only [hdot, if_true, bind_eq_ok, enter_eq_ok]
      constructor
      · rintro ⟨_, ⟨hleads, rfl⟩, _, hplace, h⟩
        exact ⟨⟨trivial, hleads, fun _ => hplace⟩, (Except.ok.inj h).symm⟩
      · rintro ⟨⟨-, hleads, hplace⟩, rfl⟩
        exact ⟨_, ⟨hleads, rfl⟩, (), hplace trivial, rfl⟩
    · simp only [hdot, if_false]
      constructor
      · rintro ⟨_, ⟨hleads, rfl⟩, h⟩
        exact ⟨⟨trivial, hleads, False.elim⟩, (Except.ok.inj h).symm⟩
      · rintro ⟨⟨-, hleads, -⟩, rfl⟩
        exact ⟨_, ⟨hleads, rfl⟩, rfl⟩

theorem folder_eq_ok : t.folder p = .ok l ↔ t.HasFolder p ∧ l = p.place := by
  simp only [folder, bind_eq_ok, walk_eq_ok, enter_eq_ok, hasFolder_iff]
  constructor
  · rintro ⟨_, ⟨hleads, rfl⟩, _, hplace, h⟩
    exact ⟨⟨hleads, hplace⟩, (Except.ok.inj h).symm⟩
  · rintro ⟨⟨hleads, hplace⟩, rfl⟩
    exact ⟨_, ⟨hleads, rfl⟩, (), hplace, rfl⟩

/-- A path finds what its place holds, a directory if the path ends in a slash. -/
theorem find_eq_ok :
    t.find p = .ok (l, e) ↔
      (t.locate p = .ok l ∧ (p.ending = .slash → t.lookup l = some .directory)) ∧
        t.lookup l = some e := by
  unfold find
  rw [bind_eq_ok]
  by_cases hslash : p.ending = .slash
  · simp only [hslash, if_true, bind_eq_ok, enter_eq_ok]
    constructor
    · rintro ⟨k, hk, _, hdir, h⟩
      split at h
      · cases h
      · rename_i he
        obtain ⟨rfl, rfl⟩ := Prod.mk.inj (Except.ok.inj h)
        exact ⟨⟨hk, fun _ => hdir⟩, he⟩
    · rintro ⟨⟨hl, hdir⟩, he⟩
      exact ⟨l, hl, (), hdir trivial, by rw [he]; rfl⟩
  · simp only [hslash, if_false]
    constructor
    · rintro ⟨k, hk, h⟩
      split at h
      · cases h
      · rename_i he
        obtain ⟨rfl, rfl⟩ := Prod.mk.inj (Except.ok.inj h)
        exact ⟨⟨hk, False.elim⟩, he⟩
    · rintro ⟨⟨hl, -⟩, he⟩
      exact ⟨l, hl, by rw [he]; rfl⟩

/-- A path reads the file that it finds at its place. -/
theorem read_eq_ok {content : ByteArray} :
    t.read p = .ok content ↔ t.find p = .ok (p.place, .file content) := by
  rw [read, bind_eq_ok]
  constructor
  · rintro ⟨⟨l, e⟩, hfind, h⟩
    obtain rfl := (locate_eq_ok.1 (find_eq_ok.1 hfind).1.1).2
    cases e with
    | directory => cases h
    | file held =>
      obtain rfl : held = content := Except.ok.inj h
      exact hfind
  · intro hfind
    exact ⟨_, hfind, rfl⟩

/-! ## Proper paths -/

/-- The path ends in a name of its own and every name on the way can be followed. -/
structure Names (t : FileTree) (p : Path) : Prop where
  proper : p.isProper = true
  leads : t.Leads p

theorem names_child (h : t.HasFolder p) (hname : name ≠ "..") : t.Names (p.child name) :=
  ⟨Path.isProper_child p hname, leads_child.2 h⟩

theorem Names.hasFolder_parent (h : t.Names p) : t.HasFolder p.parent :=
  (FileTree.hasFolder_parent (Path.names_ne_nil_of_isProper h.proper)).2 h.leads

theorem Names.locate (h : t.Names p) : t.locate p = .ok p.place := by
  obtain ⟨⟨hnames, -⟩, hdot⟩ := Path.isProper_iff.1 h.proper
  have hblank : p.isBlank = false := by
    simp only [Path.isBlank, beq_eq_false_iff_ne]
    rintro rfl
    exact hnames rfl
  exact locate_eq_ok.2 ⟨⟨hblank, h.leads, fun hend => absurd hend hdot⟩, rfl⟩

theorem Names.find (h : t.Names p) (he : t.lookup p.place = some e)
    (hslash : p.ending = .slash → e = .directory) : t.find p = .ok (p.place, e) :=
  find_eq_ok.2 ⟨⟨h.locate, fun hend => by rw [he, hslash hend]⟩, he⟩

theorem Names.find_of_none (h : t.Names p) (he : t.lookup p.place = none) :
    t.find p = .error .notFound := by
  unfold FileTree.find
  rw [h.locate]
  by_cases hslash : p.ending = .slash
  · simp [hslash, enter, he, bind, Except.bind]
  · simp [hslash, he, bind, Except.bind, throw, throwThe, MonadExceptOf.throw]

theorem Names.read {content : ByteArray} (h : t.Names p) (hend : p.ending = .name)
    (he : t.lookup p.place = some (.file content)) : t.read p = .ok content := by
  rw [FileTree.read, h.find he (by simp [hend])]
  rfl

theorem Names.load {content : ByteArray} (h : t.Names p) (hend : p.ending = .name)
    (he : t.lookup p.place = some (.file content)) : t.load p = .ok content := by
  rw [FileTree.load, h.find he (by simp [hend])]
  rfl

end TripleStore.FileTree
