import TripleStore.Proofs.FileTree.Effect

/-!
# What operations did, whatever their outcome

An operation may fail halfway, so what it leaves behind is told for every outcome. `Disk.Writes` and
`Build.Keeps` bound it to a directory and to some files, and are put together as operations are.
-/

namespace TripleStore

open FileTree

/-! ## Cases of a run -/

namespace Disk

variable {α β : Type} {t t' : FileTree} {x : Disk α} {g : α → Disk β}

/-- A sequence fails in its first operation or goes on. -/
theorem bind_cases {r : Result β} (hrun : (x >>= g).apply t = (r, t')) :
    (∃ e, r = .error e ∧ x.apply t = (.error e, t')) ∨
      ∃ a t₁, x.apply t = (.ok a, t₁) ∧ (g a).apply t₁ = (r, t') := by
  rw [apply_bind] at hrun
  rcases hx : x.apply t with ⟨r₁, t₁⟩
  rw [hx] at hrun
  cases r₁ with
  | error e =>
    obtain ⟨rfl, rfl⟩ := Prod.mk.inj hrun
    exact .inl ⟨e, rfl, rfl⟩
  | ok a => exact .inr ⟨a, t₁, rfl, hrun⟩

theorem apply_bind_eq_ok {b : β} : (x >>= g).apply t = (.ok b, t') ↔
    ∃ a t₁, x.apply t = (.ok a, t₁) ∧ (g a).apply t₁ = (.ok b, t') := by
  constructor
  · intro hrun
    rcases bind_cases hrun with ⟨e, h, -⟩ | hboth
    · cases h
    · exact hboth
  · rintro ⟨a, t₁, hfirst, hsecond⟩
    rw [apply_bind_of_ok hfirst, hsecond]

theorem undoing_cases {cleanup : Disk Unit} {r : Result α}
    (hrun : (undoing x cleanup).apply t = (r, t')) :
    (∃ a, r = .ok a ∧ x.apply t = (.ok a, t')) ∨
      ∃ e t₁, r = .error e ∧ x.apply t = (.error e, t₁) ∧ (cleanup.apply t₁).2 = t' := by
  rw [apply_undoing_eq] at hrun
  rcases hx : x.apply t with ⟨r₁, t₁⟩
  rw [hx] at hrun
  cases r₁ with
  | error e =>
    obtain ⟨rfl, rfl⟩ := Prod.mk.inj hrun
    exact .inr ⟨e, t₁, rfl, rfl, rfl⟩
  | ok a =>
    obtain ⟨rfl, rfl⟩ := Prod.mk.inj hrun
    exact .inl ⟨a, rfl, rfl⟩

theorem apply_change_eq_ok {h : FileTree → Except FileFault (α × FileTree)} {a : α} :
    (change h).apply t = (.ok a, t') ↔ h t = .ok (a, t') := by
  rw [apply_change_eq]
  cases h t <;> simp [Prod.ext_iff]

/-- A change that fails leaves the tree as it is. -/
theorem eq_of_change_error {h : FileTree → Except FileFault (α × FileTree)} {e : StoreError}
    (hrun : (change h).apply t = (.error e, t')) : t' = t := by
  rw [apply_change_eq] at hrun
  cases hh : h t with
  | error fault =>
    rw [hh] at hrun
    exact (Prod.mk.inj hrun).2.symm
  | ok p =>
    rw [hh] at hrun
    cases (Prod.mk.inj hrun).1

theorem apply_update_eq_ok {h : FileTree → Except FileFault FileTree} {u : Unit} :
    (update h).apply t = (.ok u, t') ↔ h t = .ok t' := by
  rw [update, apply_change_eq_ok]
  cases h t <;> simp [Except.map]

theorem eq_of_update_error {h : FileTree → Except FileFault FileTree} {e : StoreError}
    (hrun : (update h).apply t = (.error e, t')) : t' = t := eq_of_change_error hrun

end Disk

theorem Build.bind_cases {σ α β : Type} {x : Build σ α} {g : α → Build σ β} {s s' : σ}
    {t t' : FileTree} {r : Result β} (hrun : (x >>= g).apply s t = (r, s', t')) :
    (∃ e, r = .error e ∧ x.apply s t = (.error e, s', t')) ∨
      ∃ a s₁ t₁, x.apply s t = (.ok a, s₁, t₁) ∧ (g a).apply s₁ t₁ = (r, s', t') := by
  rw [apply_bind] at hrun
  rcases hx : x.apply s t with ⟨r₁, s₁, t₁⟩
  rw [hx] at hrun
  cases r₁ with
  | error e =>
    obtain ⟨rfl, rfl, rfl⟩ : _ ∧ s₁ = s' ∧ t₁ = t' := by simpa using hrun
    exact .inl ⟨e, rfl, rfl⟩
  | ok a => exact .inr ⟨a, s₁, t₁, rfl, hrun⟩

theorem Disk.build_cases {σ : Type} {x : Build σ Unit} {s : σ} {t t' : FileTree} {r : Result σ}
    (hrun : (Disk.build s x).apply t = (r, t')) :
    ∃ r₁ s₁, x.apply s t = (r₁, s₁, t') ∧ ∀ s', r = .ok s' → s' = s₁ := by
  rw [apply_build_eq] at hrun
  rcases hx : x.apply s t with ⟨r₁, s₁, t₁⟩
  rw [hx] at hrun
  cases r₁ with
  | error e =>
    obtain ⟨rfl, rfl⟩ := Prod.mk.inj hrun
    exact ⟨_, _, rfl, fun _ h => nomatch h⟩
  | ok u =>
    obtain ⟨rfl, rfl⟩ := Prod.mk.inj hrun
    exact ⟨_, _, rfl, fun _ h => (Except.ok.inj h).symm⟩

/-! ## Operations that only read -/

namespace Disk

variable {α β : Type} {t t' : FileTree} {x : Disk α} {g : α → Disk β}

/-- The operation leaves every tree as it is. -/
def Reads (x : Disk α) : Prop := ∀ t, (x.apply t).2 = t

theorem Reads.pure (a : α) : Reads (Pure.pure a : Disk α) := fun _ => rfl

theorem Reads.ofResult (r : Result α) : Reads (Disk.ofResult r) := fun _ => rfl

theorem Reads.look (f : FileTree → Except FileFault α) : Reads (Disk.look f) := fun _ => rfl

theorem Reads.requireFolder (p : Path) : Reads (Disk.requireFolder p) := Reads.look _

theorem Reads.eq {r : Result α} (hx : Reads x) (hrun : x.apply t = (r, t')) : t' = t := by
  rw [← hx t, hrun]

theorem Reads.bind (hx : Reads x) (hg : ∀ a, Reads (g a)) : Reads (x >>= g) := fun t => by
  rcases bind_cases (x := x) (g := g) (t := t) rfl with ⟨e, -, hfirst⟩ | ⟨a, t₁, hfirst, hsecond⟩
  · exact hx.eq hfirst
  · exact ((hg a).eq hsecond).trans (hx.eq hfirst)

theorem Reads.mapM {g : α → Disk β} (h : ∀ a, Reads (g a)) (l : List α) : Reads (l.mapM g) := by
  induction l with
  | nil => exact Reads.pure []
  | cons a l ih =>
    rw [List.mapM_cons]
    exact (h a).bind fun b => ih.bind fun bs => Reads.pure (b :: bs)

/-! ## Operations that write -/

variable {f : Place} {files more : List Place} {Q : α → Prop} {R : β → Prop}

/-- Run on a sound tree, the operation changes what is below a directory and writes some of these
files: all of them if it succeeds, and then its answer is as `Q` says. -/
def Writes (f : Place) (files : List Place) (Q : α → Prop) (x : Disk α) : Prop :=
  ∀ t r t', t.Sound → t.lookup f = some .directory → x.apply t = (r, t') →
    (∃ done ⊆ files, t.Wrote f done t') ∧ ∀ a, r = .ok a → t.Wrote f files t' ∧ Q a

namespace Writes

/-- Whatever its outcome, an operation that writes no files changes only what is below. -/
theorem wrote {r : Result α} (hx : Writes f [] Q x) (hs : t.Sound)
    (hf : t.lookup f = some .directory) (hrun : x.apply t = (r, t')) : t.Wrote f [] t' := by
  obtain ⟨⟨done, hdone, hwrote⟩, -⟩ := hx t r t' hs hf hrun
  obtain rfl := List.subset_nil.1 hdone
  exact hwrote

theorem of_reads (hx : Reads x) (hQ : ∀ t a, (x.apply t).1 = .ok a → Q a) : Writes f [] Q x := by
  intro t r t' hs hf hrun
  obtain rfl := hx.eq hrun
  have hrefl := Wrote.refl hs hf
  exact ⟨⟨[], List.Subset.refl [], hrefl⟩, fun a ha => ⟨hrefl, hQ _ a (by rw [hrun, ha])⟩⟩

theorem pure {a : α} (h : Q a) : Writes f [] Q (Pure.pure a : Disk α) :=
  of_reads (Reads.pure a) fun _ b hb => by
    obtain rfl : a = b := Except.ok.inj hb
    exact h

theorem ofResult {r : Result α} (h : ∀ a, r = .ok a → Q a) : Writes f [] Q (Disk.ofResult r) :=
  of_reads (Reads.ofResult r) fun _ a ha => h a ha

theorem reads (hx : Reads x) : Writes f [] (fun _ => True) x := of_reads hx fun _ _ _ => trivial

/-- **One operation after another writes the files of both.** -/
theorem bind (hx : Writes f files Q x) (hg : ∀ a, Q a → Writes f more R (g a)) :
    Writes f (files ++ more) R (x >>= g) := by
  intro t r t' hs hf hrun
  rcases bind_cases hrun with ⟨e, rfl, hfirst⟩ | ⟨a, t₁, hfirst, hsecond⟩
  · obtain ⟨⟨done, hdone, hwrote⟩, -⟩ := hx t _ t' hs hf hfirst
    exact ⟨⟨done, List.subset_append_of_subset_left _ hdone, hwrote⟩, fun b hb => nomatch hb⟩
  · obtain ⟨hwrote, hQ⟩ := (hx t _ t₁ hs hf hfirst).2 a rfl
    obtain ⟨⟨done, hdone, hwrote'⟩, hok⟩ :=
      hg a hQ t₁ r t' hwrote.sound hwrote.lookup_place hsecond
    refine ⟨⟨files ++ done, ?_, hwrote.trans hwrote'⟩, fun b hb => ?_⟩
    · exact List.append_subset.2 ⟨List.subset_append_left _ _,
        List.subset_append_of_subset_right _ hdone⟩
    · exact ⟨hwrote.trans (hok b hb).1, (hok b hb).2⟩

theorem forM {ι : Type} {g : ι → Disk Unit} {files : ι → List Place} {l : List ι}
    (h : ∀ i ∈ l, Writes f (files i) (fun _ => True) (g i)) :
    Writes f (l.flatMap files) (fun _ => True) (l.forM g) := by
  induction l with
  | nil => exact pure trivial
  | cons i l ih =>
    exact (h i (by simp)).bind fun _ _ => ih fun j hj => h j (by simp [hj])

/-- A file that is written in the directory is below it. -/
theorem write_child {folder : Path} {name : String} (hname : name ≠ "..") (content : ByteArray) :
    Writes folder.place [] (fun _ => True) (update (·.write (folder.child name) content)) := by
  intro t r t' hs hf hrun
  have hwrote : t.Wrote folder.place [] t' := by
    cases r with
    | error e =>
      obtain rfl := eq_of_update_error hrun
      exact Wrote.refl hs hf
    | ok u =>
      exact Wrote.of_placed_child hf (of_write_child hs hname (apply_update_eq_ok.1 hrun)).2
  exact ⟨⟨[], List.Subset.refl [], hwrote⟩, fun _ _ => ⟨hwrote, trivial⟩⟩

/-- A file that is written elsewhere. -/
theorem write_beside {folder : Path} {name : String} (hname : name ≠ "..") (content : ByteArray) :
    Writes f [folder.place ++ [name]] (fun _ => True)
      (update (·.write (folder.child name) content)) := by
  intro t r t' hs hf hrun
  cases r with
  | error e =>
    obtain rfl := eq_of_update_error hrun
    exact ⟨⟨[], by simp, Wrote.refl hs hf⟩, fun _ h => nomatch h⟩
  | ok u =>
    have hwrote := Wrote.of_placed hf (of_write_child hs hname (apply_update_eq_ok.1 hrun)).2
    exact ⟨⟨_, List.Subset.refl _, hwrote⟩, fun _ _ => ⟨hwrote, trivial⟩⟩

/-- A file of the directory that is removed was below it. -/
theorem removeFile_child {folder : Path} {name : String} (hname : name ≠ "..") :
    Writes folder.place [] (fun _ => True) (update (·.removeFile (folder.child name))) := by
  intro t r t' hs hf hrun
  have hwrote : t.Wrote folder.place [] t' := by
    cases r with
    | error e =>
      obtain rfl := eq_of_update_error hrun
      exact Wrote.refl hs hf
    | ok u =>
      obtain ⟨⟨content, hfile⟩, rfl⟩ := of_removeFile_eq_ok (apply_update_eq_ok.1 hrun)
      rw [Path.place_child folder hname] at hfile ⊢
      exact Wrote.of_drop_child hs folder.place_ne_nil hf hfile
  exact ⟨⟨[], List.Subset.refl [], hwrote⟩, fun _ _ => ⟨hwrote, trivial⟩⟩

/-- A file that is moved within its directory is below it. -/
theorem moveFile_child {p : Path} {name : String} (hname : name ≠ "..") :
    Writes p.parent.place [] (fun _ => True) (update (·.moveFile (p.parent.child name) p)) := by
  intro t r t' hs hf hrun
  have hwrote : t.Wrote p.parent.place [] t' := by
    cases r with
    | error e =>
      obtain rfl := eq_of_update_error hrun
      exact Wrote.refl hs hf
    | ok u =>
      obtain ⟨hnames, -, hold, content, hread, rfl⟩ := of_moveFile (apply_update_eq_ok.1 hrun)
      obtain ⟨-, hfile⟩ := find_eq_ok.1 (read_eq_ok.1 hread)
      rw [Path.place_child _ hname] at hfile ⊢
      have hroot : (p.parent.place ++ [name]).isRoot = false :=
        Place.isRoot_append p.parent.place_ne_nil
      have hdropped := Wrote.of_drop_child hs p.parent.place_ne_nil hf hfile
      have hparent : (t.drop (p.parent.place ++ [name])).HasFolder p.parent :=
        hnames.hasFolder_parent.mono fun q hq => by
          rw [lookup_drop hroot, if_neg, hq]
          rintro rfl
          rw [hfile] at hq
          cases hq
      obtain ⟨last, -, -, hlast⟩ := Path.place_eq_append hnames.proper
      rw [hlast] at hold ⊢
      have hold' : (t.drop (p.parent.place ++ [name])).lookup (p.parent.place ++ [last]) ≠
          some .directory := by
        rw [lookup_drop hroot]
        split
        · simp
        · exact hold
      exact hdropped.trans
        (Wrote.of_placed_child hdropped.lookup_place (hdropped.sound.placed hparent hold' _))
  exact ⟨⟨[], List.Subset.refl [], hwrote⟩, fun _ _ => ⟨hwrote, trivial⟩⟩

/-- A file may be written more than once. -/
theorem congr (hx : Writes f files Q x) (hmem : ∀ q, q ∈ files ↔ q ∈ more) : Writes f more Q x := by
  intro t r t' hs hf hrun
  obtain ⟨⟨done, hdone, hwrote⟩, hok⟩ := hx t r t' hs hf hrun
  exact ⟨⟨done, fun q hq => (hmem q).1 (hdone hq), hwrote⟩,
    fun a ha => (hok a ha).imp_left fun h => h.congr hmem⟩

/-- What follows a refusal is not done. -/
theorem throw_bind {e : StoreError} : Writes f files R ((throw e : Disk α) >>= g) := by
  intro t r t' hs hf hrun
  obtain ⟨rfl, rfl⟩ := Prod.mk.inj hrun
  exact ⟨⟨[], by simp, Wrote.refl hs hf⟩, fun _ h => nomatch h⟩

/-- What is undone after a failure. -/
theorem undoing {cleanup : Disk Unit} (hx : Writes f [] Q x)
    (hcleanup : Writes f [] (fun _ => True) cleanup) : Writes f [] Q (Disk.undoing x cleanup) := by
  intro t r t' hs hf hrun
  rcases undoing_cases hrun with ⟨a, rfl, hdone⟩ | ⟨e, t₁, rfl, hfail, rfl⟩
  · exact hx t _ t' hs hf hdone
  · have hwrote := hx.wrote hs hf hfail
    rcases hrest : cleanup.apply t₁ with ⟨r, t₂⟩
    have hwrote' := hwrote.trans (hcleanup.wrote hwrote.sound hwrote.lookup_place hrest)
    exact ⟨⟨[], List.Subset.refl [], hwrote'⟩, fun _ h => nomatch h⟩

/-- A copy of a file elsewhere. -/
theorem copy_beside {source folder : Path} {name : String} (hname : name ≠ "..") :
    Writes f [folder.place ++ [name]] (fun _ => True) (Disk.copy source (folder.child name)) := by
  have htwice : Writes f ([] ++ ([] ++ ([folder.place ++ [name]] ++
      ([] ++ [folder.place ++ [name]])))) (fun _ => True)
      (Disk.copy source (folder.child name)) := by
    rw [Disk.copy]
    refine .bind (.reads fun _ => rfl) fun t _ => ?_
    split
    · exact .throw_bind
    · exact .bind (.reads (.look _)) fun _ _ => .bind (.write_beside hname _) fun _ _ =>
        .bind (.reads (.look _)) fun _ _ => .write_beside hname _
  exact htwice.congr (by simp)

end Writes

end Disk

/-! ## Operations on builders -/

namespace Build

variable {σ τ α β : Type} {f : Place} {I : σ → Prop} {x : Build σ α} {g : α → Build σ β}

/-- The operation keeps an invariant of the builder and changes only what is below a directory. -/
def Keeps (f : Place) (I : σ → Prop) (x : Build σ α) : Prop :=
  ∀ s t r s' t', I s → t.Sound → t.lookup f = some .directory → x.apply s t = (r, s', t') →
    I s' ∧ t.Inside f t'

namespace Keeps

theorem pure (a : α) : Keeps f I (Pure.pure a : Build σ α) := by
  intro s t r s' t' hI hs hf hrun
  obtain ⟨-, rfl, rfl⟩ : _ ∧ s = s' ∧ t = t' := by simpa using hrun
  exact ⟨hI, Inside.refl hs hf⟩

theorem ofResult (r : Result α) : Keeps f I (Build.ofResult r) := by
  intro s t r s' t' hI hs hf hrun
  obtain ⟨-, rfl, rfl⟩ : _ ∧ s = s' ∧ t = t' := by simpa using hrun
  exact ⟨hI, Inside.refl hs hf⟩

theorem modify {h : σ → σ} (hI : ∀ s, I s → I (h s)) : Keeps f I (modify h : Build σ Unit) := by
  intro s t r s' t' hIs hs hf hrun
  obtain ⟨-, rfl, rfl⟩ : _ ∧ h s = s' ∧ t = t' := by simpa using hrun
  exact ⟨hI s hIs, Inside.refl hs hf⟩

theorem disk {x : Disk α} (hx : Disk.Writes f [] (fun _ => True) x) :
    Keeps f I (Build.disk x) := by
  intro s t r s' t' hI hs hf hrun
  obtain ⟨-, rfl, rfl⟩ : _ ∧ s = s' ∧ (x.apply t).2 = t' := by simpa using hrun
  exact ⟨hI, (hx.wrote hs hf rfl).inside⟩

theorem bind (hx : Keeps f I x) (hg : ∀ a, Keeps f I (g a)) : Keeps f I (x >>= g) := by
  intro s t r s' t' hI hs hf hrun
  rcases bind_cases hrun with ⟨e, -, hfirst⟩ | ⟨a, s₁, t₁, hfirst, hsecond⟩
  · exact hx s t _ s' t' hI hs hf hfirst
  · obtain ⟨hI₁, hin₁⟩ := hx s t _ s₁ t₁ hI hs hf hfirst
    obtain ⟨hI', hin'⟩ := hg a s₁ t₁ r s' t' hI₁ hin₁.sound hin₁.lookup_place hsecond
    exact ⟨hI', hin₁.trans hin'⟩

/-- An operation that looks at its builder. -/
theorem get_bind {g : σ → Build σ β} (hg : ∀ s, I s → Keeps f I (g s)) :
    Keeps f I (get >>= g) := by
  intro s t r s' t' hI hs hf hrun
  rw [apply_bind_of_ok (apply_get s t)] at hrun
  exact hg s hI s t r s' t' hI hs hf hrun

theorem part {J : τ → Prop} {get : σ → τ} {set : σ → τ → σ} {x : Build τ α}
    (hx : Keeps f J x) (hget : ∀ s, I s → J (get s)) (hset : ∀ s v, I s → J v → I (set s v)) :
    Keeps f I (Build.part get set x) := by
  intro s t r s' t' hI hs hf hrun
  rw [apply_part] at hrun
  obtain ⟨-, rfl, rfl⟩ : _ ∧ _ = s' ∧ _ = t' := by simpa using hrun
  obtain ⟨hJ, hin⟩ := hx (get s) t _ _ _ (hget s hI) hs hf rfl
  exact ⟨hset s _ hI hJ, hin⟩

theorem forM {ι : Type} {g : ι → Build σ Unit} {l : List ι} (h : ∀ i ∈ l, Keeps f I (g i)) :
    Keeps f I (l.forM g) := by
  induction l with
  | nil => exact pure ()
  | cons i l ih => exact (h i (by simp)).bind fun _ => ih fun j hj => h j (by simp [hj])

/-- The builder that a run of the operation answers. -/
theorem build {x : Build σ Unit} (hx : Keeps f I x) {s : σ} (hI : I s) :
    Disk.Writes f [] I (Disk.build s x) := by
  intro t r t' hs hf hrun
  obtain ⟨r₁, s₁, hfirst, hanswer⟩ := Disk.build_cases hrun
  obtain ⟨hI₁, hin⟩ := hx s t r₁ s₁ t' hI hs hf hfirst
  have hwrote := Wrote.of_inside hin
  exact ⟨⟨[], List.Subset.refl [], hwrote⟩, fun s' hs' => ⟨hwrote, hanswer s' hs' ▸ hI₁⟩⟩

end Keeps

end Build

end TripleStore
