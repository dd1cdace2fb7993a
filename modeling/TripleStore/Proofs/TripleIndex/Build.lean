import TripleStore.Proofs.TripleIndex.Writer
import TripleStore.Proofs.Workspace
import TripleStore.TripleIndex.Builder

/-!
# Building the indices

A build of indices holds the triples that it took in, once for each order (`IndexBuilder.Held`).
Writing it publishes a directory of three files, each of which stores the rows of the triples in
one order (`write_of_held`).
-/

namespace TripleStore

/-! ## Names of files -/

namespace RoleOrder

theorem fileName_injective {a b : RoleOrder} (h : a.fileName = b.fileName) : a = b := by
  cases a <;> cases b <;> first | rfl | exact absurd h (by decide)

theorem fileName_ne_byValue (a b : RoleOrder) : a.fileName ≠ b.fileName ++ "-by-value" := by
  cases a <;> cases b <;> decide

/-- Names of the sorters of an order: of its rows, and of its rows by value. -/
def stems (o : RoleOrder) : List String := [o.fileName, o.fileName ++ "-by-value"]

theorem ne_of_mem_stems {a c : RoleOrder} (h : a ≠ c) {x y : String} (hx : x ∈ a.stems)
    (hy : y ∈ c.stems) : x ≠ y := by
  have hall : ∀ x ∈ a.stems, ∀ y ∈ c.stems, x ≠ y := by
    cases a <;> cases c <;> first | exact absurd rfl h | decide
  exact hall x hx y hy

theorem fileName_ne_dots (a : RoleOrder) : a.fileName ≠ ".." := by
  cases a <;> decide

theorem mem_all (a : RoleOrder) : a ∈ all := by
  cases a <;> decide

end RoleOrder

namespace IndexBuilder

/-! ## Taking in triples -/

/-- The sorter of an order holds the rows of triples, and the names of the runs by value are free.
-/
structure Pending (folder : Path) (t : FileTree) (b : IndexBuilder) (triples : List Triple)
    (order : RoleOrder) : Prop where
  rows : Sorter.Holds folder order.fileName t (b.sorter order) (triples.map (·.toRow order))
  free : ∀ i, t.lookup (folder.place ++ [Sorter.runName (order.fileName ++ "-by-value") i]) ≠
    some .directory

/-- A build holds triples. -/
structure Held (folder : Path) (t : FileTree) (b : IndexBuilder) (triples : List Triple) :
    Prop where
  workspace : b.workspace = ⟨folder⟩
  count : b.count = triples.length
  pending : ∀ order, Pending folder t b triples order

variable {folder : Path} {t t' : FileTree} {b b' : IndexBuilder} {triples : List Triple}
  {order : RoleOrder}

theorem runName_fileName_ne_byValue (folder : Path) (a c : RoleOrder) (i j : Nat) :
    folder.place ++ [Sorter.runName (a.fileName ++ "-by-value") i] ≠
      folder.place ++ [Sorter.runName c.fileName j] := fun heq =>
  RoleOrder.fileName_ne_byValue c a (Sorter.runName_injective (by simpa using heq)).1.symm

/-- What a sorter of another order does does not matter. -/
theorem Pending.of_offRuns {other : RoleOrder} (h : Pending folder t b triples order)
    (hf : t'.HasFolder folder) (hne : order ≠ other)
    (hoff : Sorter.OffRuns folder other.fileName t t') (hb : b'.sorter order = b.sorter order) :
    Pending folder t' b' triples order where
  rows := hb ▸ h.rows.of_offRuns hf (fun heq => hne (RoleOrder.fileName_injective heq)) hoff
  free i := by
    rw [hoff.outside _ fun j => runName_fileName_ne_byValue folder order other i j]
    exact h.free i

/-- One of the sorters takes the row of a triple. -/
theorem push_of_pending (order : RoleOrder) (get : IndexBuilder → Sorter Row)
    (set : IndexBuilder → Sorter Row → IndexBuilder) {held : RoleOrder → List Triple}
    (hget : get b = b.sorter order)
    (hset : ∀ s, (set b s).sorter order = s ∧
      ∀ other, other ≠ order → (set b s).sorter other = b.sorter other)
    (hs : t.Sound) (h : ∀ o, Pending folder t b (held o) o) (triple : Triple) :
    ∃ s t', (Build.part get set (Sorter.push (triple.toRow order))).apply b t =
        (.ok (), set b s, t') ∧
      (∀ o, Pending folder t' (set b s)
        (Function.update held order (held order ++ [triple]) o) o) ∧
      Sorter.OffRuns folder order.fileName t t' := by
  obtain ⟨s, t', hpush, hrows, hoff⟩ :=
    Sorter.push_of_holds hs (h order).rows (fits_row (triple.toRow order))
  refine ⟨s, t', ?_, fun o => ?_, hoff⟩
  · rw [Build.apply_part, hget, hpush]
  · obtain ⟨hself, hother⟩ := hset s
    by_cases ho : o = order
    · subst ho
      rw [Function.update_self]
      refine ⟨by rw [hself, List.map_append]; exact hrows, fun i => ?_⟩
      rw [hoff.outside _ fun j => runName_fileName_ne_byValue folder o o i j]
      exact (h o).free i
    · rw [Function.update_of_ne ho]
      exact (h o).of_offRuns hrows.hasFolder ho hoff (hother o ho)

/-- **A build takes in every triple.** -/
theorem add_of_held (hs : t.Sound) (h : b.Held folder t triples) (triple : Triple) :
    ∃ b' t', (add triple).apply b t = (.ok (), b', t') ∧
      b'.Held folder t' (triples ++ [triple]) ∧ t.Inside folder.place t' := by
  obtain ⟨s₁, t₁, hrun₁, h₁, hoff₁⟩ := push_of_pending .spo (·.spo) (fun b s => { b with spo := s })
    rfl (fun s => ⟨rfl, fun o ho => by cases o <;> first | rfl | exact absurd rfl ho⟩) hs h.pending
    triple
  obtain ⟨s₂, t₂, hrun₂, h₂, hoff₂⟩ := push_of_pending .pso (·.pso) (fun b s => { b with pso := s })
    rfl (fun s => ⟨rfl, fun o ho => by cases o <;> first | rfl | exact absurd rfl ho⟩)
    hoff₁.sound h₁ triple
  obtain ⟨s₃, t₃, hrun₃, h₃, hoff₃⟩ := push_of_pending .ops (·.ops) (fun b s => { b with ops := s })
    rfl (fun s => ⟨rfl, fun o ho => by cases o <;> first | rfl | exact absurd rfl ho⟩)
    hoff₂.sound h₂ triple
  refine ⟨{ b with spo := s₁, pso := s₂, ops := s₃, count := b.count + 1 }, t₃, ?_,
    ⟨h.workspace, ?_, fun o => ?_⟩, ?_⟩
  · rw [add, Build.apply_bind_of_ok hrun₁, Build.apply_bind_of_ok hrun₂,
      Build.apply_bind_of_ok hrun₃, Build.apply_modify]
  · simp [h.count]
  · have ho := h₃ o
    cases o <;> exact ⟨ho.rows, ho.free⟩
  · have hf := (h.pending .spo).rows.hasFolder.lookup_place
    have hin₁ := hoff₁.inside hf
    have hin₂ := hin₁.trans (hoff₂.inside hin₁.lookup_place)
    exact hin₂.trans (hoff₃.inside hin₂.lookup_place)

/-- **A build starts without triples.** -/
theorem create_held {settings : Settings} (hs : t.Sound) (hp : t.Passable settings.workPath)
    (hc : settings.compressRuns = false) :
    ∃ name b t', (create settings).apply t = (.ok b, t') ∧ name ≠ ".." ∧
      t.Opened settings.workPath name t' ∧ b.Held (settings.workPath.child name) t' [] := by
  have hstem : "triples-" ∈ temporaryStems := by decide
  obtain ⟨name, t', hcreate, hdots, ho⟩ := Workspace.create_of_passable hs hp hc hstem
  let budget := max (settings.sortBufferBytes / 3) 1
  let sorter (order : RoleOrder) : Sorter Row :=
    Sorter.create (settings.workPath.child name) order.fileName budget
  refine ⟨name, ⟨⟨settings.workPath.child name⟩, budget, sorter .spo, sorter .pso, sorter .ops, 0⟩,
    t', ?_, hdots, ho, ⟨rfl, rfl, fun order => ⟨?_, fun i => ?_⟩⟩⟩
  · rw [create, Disk.apply_bind_of_ok hcreate]
    rfl
  · have hholds := Sorter.holds_create_of_opened (α := Row) hs hdots ho order.fileName budget
    cases order <;> exact hholds
  · rw [Path.place_child _ hdots, ho.lookup_below hs (List.prefix_append _ _) (by simp)]
    simp

/-! ## Writing the files -/

variable {out : Path}

/-- **The file of an order is written beside the runs.** -/
theorem writeOrder_of_pending (hs : t.Sound) (hw : b.workspace = ⟨folder⟩)
    (h : Pending folder t b triples order) (hout : t.HasFolder out)
    (hold : t.lookup (out.place ++ [order.fileName]) ≠ some .directory)
    (hapart : out.place ≠ folder.place) :
    ∃ t', (b.writeOrder out order).apply t = (.ok (), t') ∧ t'.Sound ∧
      (∃ content, t'.lookup (out.place ++ [order.fileName]) = some (.file content) ∧
        TripleIndex.Filed content order (Sorter.sorted (triples.map (·.toRow order)))) ∧
      ∀ q, q ≠ out.place ++ [order.fileName] →
        (∀ name ∈ order.stems, ∀ i, q ≠ folder.place ++ [Sorter.runName name i]) →
        t'.lookup q = t.lookup q := by
  have hplace : (out.child order.fileName).place = out.place ++ [order.fileName] :=
    Path.place_child _ order.fileName_ne_dots
  have hin : ∀ name i, out.place ++ [order.fileName] ≠ folder.place ++ [Sorter.runName name i] :=
    fun name i heq => hapart (List.append_inj_left' heq rfl)
  obtain ⟨t₁, hdrain, hoff₁⟩ := Sorter.drain_of_holds hs h.rows
  have hkeep₁ := fun q => hoff₁.lookup_directory h.rows.free (q := q)
  have hready : IndexWriter.Ready t₁ folder order (out.child order.fileName) :=
    { sound := hoff₁.sound
      hasFolder := h.rows.hasFolder.mono hkeep₁
      free := fun i => by
        rw [hoff₁.outside _ fun j => runName_fileName_ne_byValue folder order order i j]
        exact h.free i
      names := FileTree.names_child (hout.mono hkeep₁) order.fileName_ne_dots
      ending := rfl
      old := by
        rw [hplace, hoff₁.outside _ (hin _)]
        exact hold
      apart := fun i => by
        rw [hplace]
        exact hin _ i }
  -- the rows go through the writer
  obtain ⟨content, t₂, hwrite, hs₂, hfile, hfiled, hothers⟩ := IndexWriter.write_of_ready hready
    (Sorter.ascending_sorted (triples.map (·.toRow order))) b.budget
  rw [hplace] at hfile hothers
  refine ⟨t₂, ?_, hs₂, ⟨content, hfile, hfiled⟩, fun q hq hruns => ?_⟩
  · rw [IndexWriter.write, Disk.apply_bind_of_ok
      (IndexWriter.create_of_hasFolder hready.hasFolder order b.budget)] at hwrite
    rw [writeOrder, hw, Disk.apply_bind_of_ok
      (IndexWriter.create_of_hasFolder h.rows.hasFolder order b.budget),
      Disk.apply_bind_of_ok hdrain, ← bind_assoc, Disk.apply_bind_of_ok hwrite]
    rfl
  · rw [hothers q hq (hruns _ (by simp [RoleOrder.stems])),
      hoff₁.outside q (hruns order.fileName (by simp [RoleOrder.stems]))]

/-- The files of some orders are written, and the other orders are still pending. -/
structure Writing (folder out : Path) (t₀ : FileTree) (b : IndexBuilder) (triples : List Triple)
    (done : List RoleOrder) (t : FileTree) : Prop where
  sound : t.Sound
  private_place : t.lookup folder.place = some .directory
  hasOut : t.HasFolder out
  filed : ∀ o ∈ done, ∃ content, t.lookup (out.place ++ [o.fileName]) = some (.file content) ∧
    TripleIndex.Filed content o (Sorter.sorted (triples.map (·.toRow o)))
  pending : ∀ o, o ∉ done → Pending folder t b triples o
  vacant : ∀ o, o ∉ done → t.lookup (out.place ++ [o.fileName]) = none
  others : ∀ q, ¬ folder.place <+: q → ¬ out.place <+: q → t.lookup q = t₀.lookup q

/-- No directory has the name of a run of an order that is still pending. -/
theorem Pending.notRun (h : Pending folder t b triples order) {q : Place}
    (hq : t.lookup q = some .directory) :
    ∀ name ∈ order.stems, ∀ i, q ≠ folder.place ++ [Sorter.runName name i] := by
  rintro name hname i rfl
  rcases List.mem_cons.1 hname with rfl | hname
  · exact h.rows.free i hq
  · rw [List.mem_singleton.1 hname] at hq
    exact h.free i hq

/-- **One more order is written.** -/
theorem Writing.step {t₀ : FileTree} {done : List RoleOrder} (hw : b.workspace = ⟨folder⟩)
    (hapart : out.place ≠ folder.place) (h : Writing folder out t₀ b triples done t)
    (horder : order ∉ done) :
    ∃ t', (b.writeOrder out order).apply t = (.ok (), t') ∧
      Writing folder out t₀ b triples (done ++ [order]) t' := by
  have hp := h.pending order horder
  have hfree := h.vacant order horder
  obtain ⟨t', hrun, hs', hfile, hothers⟩ := writeOrder_of_pending h.sound hw hp h.hasOut
    (by rw [hfree]; simp) hapart
  have hin : ∀ o name i, out.place ++ [RoleOrder.fileName o] ≠
      folder.place ++ [Sorter.runName name i] :=
    fun o name i heq => hapart (List.append_inj_left' heq rfl)
  have hkeep : ∀ q, t.lookup q = some .directory → t'.lookup q = some .directory := fun q hq => by
    rw [hothers q ?_ (hp.notRun hq), hq]
    rintro rfl
    rw [hfree] at hq
    cases hq
  have hbeside : ∀ o, o ≠ order → t'.lookup (out.place ++ [o.fileName]) =
      t.lookup (out.place ++ [o.fileName]) := fun o ho =>
    hothers _ (fun heq => ho (RoleOrder.fileName_injective (by simpa using heq)))
      fun name _ => hin o name
  have hruns : ∀ o, o ≠ order → ∀ name ∈ o.stems, ∀ i,
      t'.lookup (folder.place ++ [Sorter.runName name i]) =
        t.lookup (folder.place ++ [Sorter.runName name i]) := fun o ho name hname i =>
    hothers _ (hin order name i).symm fun other hother j heq =>
      RoleOrder.ne_of_mem_stems ho hname hother (Sorter.runName_injective (by simpa using heq)).1
  refine ⟨t', hrun, hs', hkeep _ h.private_place, h.hasOut.mono hkeep, fun o ho => ?_,
    fun o ho => ?_, fun o ho => ?_, fun q hqf hqo => ?_⟩
  · rcases List.mem_append.1 ho with ho | ho
    · rw [hbeside o fun heq => horder (heq ▸ ho)]
      exact h.filed o ho
    · rw [List.mem_singleton.1 ho]
      exact hfile
  · simp only [List.mem_append, List.mem_singleton, not_or] at ho
    have hpo := h.pending o ho.1
    refine ⟨hpo.rows.of_lookup (hpo.rows.hasFolder.mono hkeep)
      (hruns o ho.2 _ (by simp [RoleOrder.stems])), fun i => ?_⟩
    rw [hruns o ho.2 _ (by simp [RoleOrder.stems])]
    exact hpo.free i
  · simp only [List.mem_append, List.mem_singleton, not_or] at ho
    rw [hbeside o ho.2, h.vacant o ho.1]
  · refine (hothers q ?_ ?_).trans (h.others q hqf hqo)
    · rintro rfl
      exact hqo (List.prefix_append _ _)
    · rintro name - i rfl
      exact hqf (List.prefix_append _ _)

/-- **All orders are written.** -/
theorem Writing.all {t₀ : FileTree} (hw : b.workspace = ⟨folder⟩)
    (hapart : out.place ≠ folder.place) (h : Writing folder out t₀ b triples [] t) :
    ∃ t', (RoleOrder.all.forM (b.writeOrder out)).apply t = (.ok (), t') ∧
      Writing folder out t₀ b triples RoleOrder.all t' := by
  refine Disk.forM_of_step (fun before order after t₁ hall h₁ => h₁.step hw hapart ?_) h
  have hnodup : RoleOrder.all.Nodup := by decide
  rw [hall] at hnodup
  exact fun hmem => (List.nodup_append.1 hnodup).2.2 order hmem order (by simp) rfl

/-! ## Publishing -/

/-- What a published directory of indices holds. -/
def Files (triples : List Triple) (held : Place → Option Entry) : Prop :=
  held [] = some .directory ∧ ∀ o, ∃ content, held [RoleOrder.fileName o] = some (.file content) ∧
    TripleIndex.Filed content o (Sorter.sorted (triples.map (·.toRow o)))

/-- A build in a private directory does not notice that another directory is opened. -/
theorem Pending.of_opened {target : Path} {name : String}
    (h : Pending folder t b triples order) (ha : t.Awaits target folder.place)
    (ho : t.Opened target.parent name t')
    (hfs : ¬ folder.place <+: target.parent.place ++ [name]) :
    Pending folder t' b triples order where
  rows := h.rows.of_opened ha ho hfs
  free i := by
    rw [ha.lookup_of_opened folder.place_ne_nil ho hfs (List.prefix_append _ _)]
    exact h.free i

variable {t₁ t₂ : FileTree} {work : Path} {name : String} {target : Destination}

/-- **Writing publishes the three files.** -/
theorem write_of_held (hr : t.Ready work target.path) (hname : name ≠ "..")
    (ho : t.Opened work name t₁)
    (hi : t₁.Inside (work.place ++ [name]) t₂) (h : b.Held (work.child name) t₂ triples) :
    ∃ held t', (b.write target).apply t₂ = (.ok triples.length, t') ∧
      t.Built work target.path held t' ∧ Files triples held := by
  have ha := hr.awaits ho hi
  have hplace := Path.place_child work hname
  have hfill : Disk.FillsBeside t₂ target (work.place ++ [name])
      (fun folder => RoleOrder.all.forM (b.writeOrder folder.path))
      fun _ held => Files triples held := by
    intro fresh t' hfresh hopened hfs hsf
    have hout := Path.place_child target.path.parent hfresh
    rw [← hplace] at ha hfs hsf
    rw [← hout] at hfs hsf
    have hwriting : Writing (work.child name) (target.path.parent.child fresh) t' b triples [] t' :=
      { sound := hopened.sound
        private_place := hopened.lookup_directory (by rw [hplace, hi.lookup_place])
        hasOut := (FileTree.hasFolder_child hfresh).2 ⟨hopened.hasFolder, hopened.lookup_place⟩
        filed := fun o ho => nomatch ho
        pending := fun o _ => (h.pending o).of_opened ha hopened (hout ▸ hfs)
        vacant := fun o _ => by
          rw [hout, hopened.lookup_below hi.sound (List.prefix_append _ _) (by simp)]
        others := fun _ _ _ => rfl }
    obtain ⟨t'', hrun, hall⟩ :=
      hwriting.all h.workspace fun heq => hfs (heq ▸ List.prefix_refl _)
    have hdirectory := hall.hasOut.lookup_place
    refine ⟨(), t'', hrun, hall.sound, hplace ▸ hall.private_place, hout ▸ hdirectory,
      hplace ▸ hout ▸ hall.others, ?_, fun o => ?_⟩
    · simpa [hout] using hdirectory
    · exact hout ▸ hall.filed o o.mem_all
  obtain ⟨_, t₃, hstaged, hpublished, hfiles⟩ :=
    Disk.staged_of_awaits hi.sound hi.lookup_place (by simp) ha hfill
  have hbody : (do
      Disk.staged target fun folder => RoleOrder.all.forM (b.writeOrder folder.path)
      return b.count : Disk Nat).apply t₂ = (.ok b.count, t₃) := by
    rw [Disk.apply_bind_of_ok hstaged]
    rfl
  obtain ⟨t', hrun, hbuilt⟩ :=
    Workspace.consume_of_published hr hname ho hi hbody hpublished
  refine ⟨_, t', ?_, hbuilt, hfiles⟩
  rw [write, h.workspace, hrun, h.count]

/-! ## The whole build -/

/-- **A build holds the triples that it was given one after another.** Each item adds one. -/
theorem forM_of_held {α : Type} {take : α → Build IndexBuilder Unit} {toTriple : α → Triple}
    {items : List α} (hs : t.Sound) (h : b.Held folder t [])
    (htake : ∀ a ∈ items, ∀ b t, (take a).apply b t = (add (toTriple a)).apply b t) :
    ∃ b' t', (items.forM take).apply b t = (.ok (), b', t') ∧
      b'.Held folder t' (items.map toTriple) ∧ t.Inside folder.place t' := by
  have hf := (h.pending .spo).rows.hasFolder.lookup_place
  refine Build.forM_of_step (P := fun before b' t' =>
    IndexBuilder.Held folder t' b' (before.map toTriple) ∧ t.Inside folder.place t')
    (fun before item after b₁ t₁ hitems h₁ => ?_) ⟨h, FileTree.Inside.refl hs hf⟩
  obtain ⟨hheld, hinside⟩ := h₁
  obtain ⟨b₂, t₂, hadd, hheld₂, hinside₂⟩ := add_of_held hinside.sound hheld (toTriple item)
  refine ⟨b₂, t₂, (htake item (by simp [hitems]) b₁ t₁).trans hadd, ?_, hinside.trans hinside₂⟩
  rwa [List.map_append]

/-- Builds the indices of triples. -/
def build (settings : Settings) (triples : List Triple) (target : Destination) : Disk Nat := do
  let b ← create settings
  let b ← Disk.build b (triples.forM add)
  b.write target

/-- In a tree that is ready a build leaves the files of the three orders at the destination. -/
theorem files_of_build {settings : Settings} (hr : t.Ready settings.workPath target.path)
    (hc : settings.compressRuns = false) (triples : List Triple) :
    ∃ t', (build settings triples target).apply t = (.ok triples.length, t') ∧
      ∀ order, ∃ content, t'.load (target.path.child (RoleOrder.fileName order)) = .ok content ∧
        TripleIndex.Filed content order (Sorter.sorted (triples.map (·.toRow order))) := by
  obtain ⟨name, b, t₁, hcreate, hdots, ho, hheld⟩ := create_held hr.sound hr.passable hc
  have hsame : ∀ triple ∈ triples, ∀ b t, (add triple).apply b t = (add (id triple)).apply b t :=
    fun _ _ _ _ => rfl
  obtain ⟨b', t₂, hadd, hheld', hinside⟩ := forM_of_held ho.sound hheld hsame
  rw [Path.place_child _ hdots] at hinside
  rw [List.map_id] at hheld'
  obtain ⟨held, t', hwrite, hbuilt, hdirectory, hfiles⟩ :=
    write_of_held hr hdots ho hinside hheld'
  refine ⟨t', ?_, fun order => ?_⟩
  · rw [build, Disk.apply_bind_of_ok hcreate, Disk.apply_bind_of_ok (Disk.apply_build hadd), hwrite]
  · obtain ⟨content, hfile, hstores⟩ := hfiles order
    exact ⟨content, hbuilt.load hr hdirectory order.fileName_ne_dots hfile, hstores⟩

/-- **In a tree that is ready the indices of any triples are built.** Each of the three files that
are then at the destination stores the triples as the sorted rows of its order: it opens, passes its
checks and checksums, and every read answers for exactly these rows. -/
theorem stores_of_build {settings : Settings} (hr : t.Ready settings.workPath target.path)
    (hc : settings.compressRuns = false) (triples : List Triple) :
    ∃ t', (build settings triples target).apply t = (.ok triples.length, t') ∧
      ∀ order, ∃ content, t'.load (target.path.child (RoleOrder.fileName order)) = .ok content ∧
        TripleIndex.Stores content order (Sorter.sorted (triples.map (·.toRow order))) ∧
        ((Sorter.sorted (triples.map (·.toRow order))).map (·.toTriple order)).Perm triples := by
  obtain ⟨t', hrun, hfiles⟩ := files_of_build hr hc triples
  refine ⟨t', hrun, fun order => ?_⟩
  obtain ⟨content, hload, hfiled⟩ := hfiles order
  refine ⟨content, hload, hfiled.stores, ?_⟩
  have hperm := (Sorter.sorted_perm (triples.map (·.toRow order))).map (·.toTriple order)
  have hback : (fun r : Row => r.toTriple order) ∘ (fun p : Triple => p.toRow order) = id := by
    funext p
    exact p.toTriple_toRow order
  rwa [List.map_map, hback, List.map_id] at hperm

/-- A build of two triples, one of them twice, that works in one directory of an empty tree and
publishes another one. -/
theorem stores_of_build_three :
    (FileTree.empty.Ready Settings.default.workPath ⟨true, ["out"], .name⟩ ∧
      Settings.default.compressRuns = false) ∧
    ∃ t', (build Settings.default [⟨3, 1, 2⟩, ⟨1, 1, 2⟩, ⟨3, 1, 2⟩]
        ⟨⟨true, ["out"], .name⟩, "/out"⟩).apply FileTree.empty = (.ok 3, t') ∧
      ∀ order, ∃ content,
        t'.load (Path.child ⟨true, ["out"], .name⟩ (RoleOrder.fileName order)) = .ok content ∧
        TripleIndex.Stores content order
          (Sorter.sorted (([⟨3, 1, 2⟩, ⟨1, 1, 2⟩, ⟨3, 1, 2⟩] : List Triple).map (·.toRow order))) ∧
        ((Sorter.sorted (([⟨3, 1, 2⟩, ⟨1, 1, 2⟩, ⟨3, 1, 2⟩] : List Triple).map
          (·.toRow order))).map (·.toTriple order)).Perm [⟨3, 1, 2⟩, ⟨1, 1, 2⟩, ⟨3, 1, 2⟩] := by
  exact ⟨⟨FileTree.ready_out, rfl⟩,
    stores_of_build FileTree.ready_out rfl [⟨3, 1, 2⟩, ⟨1, 1, 2⟩, ⟨3, 1, 2⟩]⟩

end IndexBuilder

end TripleStore
