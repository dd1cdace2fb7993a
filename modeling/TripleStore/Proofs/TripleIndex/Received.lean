import TripleStore.Proofs.Sorter.Shared
import TripleStore.Proofs.TripleIndex.Writer

/-!
# Index writers whose runs may be lost

What a writer notes of its rows stays with it (`Received`), so it takes rows whatever became of its
runs (`Received.push`). Only when it finishes does it need the runs: then it fails if the first one
is missing (`finish_of_missing`), and when it is done none of them is left (`finish_refiled`).
-/

namespace TripleStore

namespace IndexWriter

variable {folder : Path} {name : String} {budget : Nat} {order : RoleOrder} {target : Path}
  {w : IndexWriter} {taken : List Row} {row : Row} {t t' : FileTree}

/-- What a writer knows of the rows that it took in, whatever became of its runs. -/
structure Received (folder : Path) (name : String) (budget : Nat) (w : IndexWriter)
    (taken : List Row) : Prop where
  noted : ∃ groups, w.Noted groups ∧ expand KeyGroup.rows groups = taken
  absorbed : w = { taken.foldl absorb (blank w.order) with byValue := w.byValue }
  folder_eq : w.byValue.folder = folder
  name_eq : w.byValue.name = name
  budget_eq : w.byValue.budget = max budget 1
  held : w.byValue.runs = 0 → w.byValue.held = 24 * taken.length
  quiet : w.byValue.runs = 0 ↔ 24 * taken.length < max budget 1

theorem Ready.clear (h : Ready t folder order target) :
    Sorter.Clear t folder (order.fileName ++ "-by-value") := ⟨h.sound, h.hasFolder, h.free⟩

theorem Ready.of_refiled {places : Set Place} (h : Ready t folder order target)
    (hr : t.Refiled places t') : Ready t' folder order target :=
  have hclear := h.clear.of_refiled hr
  ⟨hclear.sound, hclear.hasFolder, hclear.free, hr.names h.names, h.ending,
    fun hdir => h.old ((hr.directory _).1 hdir), h.apart⟩

theorem received_nothing (h : Sorter.Clear t folder name) (order : RoleOrder) (budget : Nat) :
    Received folder name budget
      { blank order with byValue := Sorter.create folder name budget } [] where
  noted := ⟨[], (took_nothing order budget h.hasFolder h.free).noted, rfl⟩
  absorbed := rfl
  folder_eq := rfl
  name_eq := rfl
  budget_eq := rfl
  held _ := rfl
  quiet := ⟨fun _ => Nat.lt_of_lt_of_le Nat.zero_lt_one (Nat.le_max_right budget 1), fun _ => rfl⟩

/-- A writer whose runs hold its rows took them. -/
theorem Received.took (h : Received folder name budget w taken)
    (hholds : Sorter.Holds folder name t w.byValue (taken.map Row.turned)) :
    ∃ groups, w.Took folder name t groups ∧ expand KeyGroup.rows groups = taken := by
  obtain ⟨groups, hnoted, rfl⟩ := h.noted
  exact ⟨groups, ⟨hnoted, h.absorbed, hholds⟩, rfl⟩

/-- A writer took rows after others: it wrote runs of no number below the next one, and if its runs
held the rows before, they hold all of them now. -/
structure Extends (folder : Path) (name : String) (budget : Nat) (taken : List Row)
    (w : IndexWriter) (t : FileTree) (rows : List Row) (w' : IndexWriter) (t' : FileTree) :
    Prop where
  received : Received folder name budget w' (taken ++ rows)
  order_eq : w'.order = w.order
  runs_le : w.byValue.runs ≤ w'.byValue.runs
  refiled : t.Refiled (Sorter.runsFrom folder name w.byValue.runs) t'
  holds : Sorter.Holds folder name t w.byValue (taken.map Row.turned) →
    Sorter.Holds folder name t' w'.byValue ((taken ++ rows).map Row.turned)

theorem Extends.refl (h : Received folder name budget w taken) (hs : t.Sound) :
    Extends folder name budget taken w t [] w t where
  received := by rwa [List.append_nil]
  order_eq := rfl
  runs_le := Nat.le_refl _
  refiled := .refl hs
  holds hholds := by rwa [List.append_nil]

theorem Extends.trans {rows more : List Row} {w₁ w₂ : IndexWriter} {t₁ t₂ : FileTree}
    (h : Extends folder name budget taken w t rows w₁ t₁)
    (h' : Extends folder name budget (taken ++ rows) w₁ t₁ more w₂ t₂) :
    Extends folder name budget taken w t (rows ++ more) w₂ t₂ where
  received := List.append_assoc taken rows more ▸ h'.received
  order_eq := h'.order_eq.trans h.order_eq
  runs_le := h.runs_le.trans h'.runs_le
  refiled := h.refiled.trans (h'.refiled.mono (Sorter.runsFrom_mono h.runs_le))
  holds hholds := List.append_assoc taken rows more ▸ h'.holds (h.holds hholds)

/-- **A writer takes each row that comes in order, whatever became of its runs**, and changes no
file as long as it has not written a run. -/
theorem Received.push (h : Received folder name budget w taken)
    (hclear : Sorter.Clear t folder name) (hle : ∀ r ∈ taken, (compare r row).isLE) :
    ∃ w' t', (push row).apply w t = (.ok (), w', t') ∧
      Extends folder name budget taken w t [row] w' t' ∧ (w'.byValue.runs = 0 → t' = t) := by
  obtain ⟨⟨groups, hnoted, rfl⟩, habsorbed, rfl, rfl, hbudget, hheld, hquiet⟩ := h
  obtain ⟨t', hpush, hrefiled, hsame⟩ := Sorter.push_of_clear hclear row.turned
  obtain ⟨w', groups', hrun, hsorter, hnoted', habsorbed', hexpand, horder⟩ :=
    push_of_noted hnoted habsorbed hle hpush
  have hfootprint : Record.footprint row.turned = 24 := rfl
  have hruns : (w.byValue.pushed row.turned).runs = 0 ↔
      w.byValue.runs = 0 ∧ w.byValue.held + 24 < max budget 1 := by
    rw [Sorter.runs_pushed_eq_zero, hfootprint, hbudget]
  rw [← hsorter] at hruns hsame
  refine ⟨w', t', hrun, ⟨⟨⟨groups', hnoted', hexpand⟩, hexpand ▸ habsorbed', ?_, ?_, ?_,
    fun hzero => ?_, ?_⟩, horder, ?_, hrefiled, fun hholds => ?_⟩, hsame⟩
  · rw [hsorter, Sorter.folder_pushed]
  · rw [hsorter, Sorter.name_pushed]
  · rw [hsorter, Sorter.budget_pushed, hbudget]
  · have hbefore := hheld (hruns.1 hzero).1
    rw [hsorter] at hzero ⊢
    rw [Sorter.held_pushed hzero, hbefore, hfootprint, List.length_append, List.length_singleton]
    omega
  · rw [hruns, List.length_append, List.length_singleton]
    constructor
    · rintro ⟨hzero, hlt⟩
      rw [hheld hzero] at hlt
      omega
    · intro hlt
      have hzero := hquiet.2 (by omega)
      rw [hheld hzero]
      omega
  · rw [hsorter]
    exact Sorter.runs_le_pushed _ _
  · obtain ⟨s', t₁, hpush₁, hholds', -⟩ :=
      Sorter.push_of_holds hclear.sound hholds (fits_row row.turned)
    obtain ⟨-, hrest⟩ := Prod.mk.inj (hpush.symm.trans hpush₁)
    obtain ⟨rfl, rfl⟩ := Prod.mk.inj hrest
    rw [hsorter, List.map_append]
    exact hholds'

/-- A file that is still being made is not a run. -/
theorem fresh_notMem_runsFrom (p : Path) (k : Nat) :
    p.place ++ [".file-" ++ toString k] ∉ Sorter.runsFrom folder name 0 := by
  rintro ⟨i, -, heq⟩
  exact Sorter.runName_ne_append_toString name i ".file-" k
    (List.singleton_inj.1 (List.append_inj_right' heq rfl)).symm

/-- **What is left of a folder in which a writer finished**: none of its runs. -/
theorem finish_refiled {n : Nat} (h : Ready t folder order target)
    (hfolder : w.byValue.folder = folder)
    (hname : w.byValue.name = order.fileName ++ "-by-value")
    (hrun : (w.finish target).apply t = (.ok n, t')) :
    t.Refiled (insert target.place (Sorter.runsFrom folder (order.fileName ++ "-by-value") 0)) t' ∧
      (w.byValue.runs = 0 → ∀ q, q ≠ target.place → t'.lookup q = t.lookup q) ∧
      (1 ≤ w.byValue.runs →
        t'.lookup (folder.place ++ [Sorter.runName (order.fileName ++ "-by-value") 0]) = none) := by
  obtain ⟨_, t₀, hreplace, hcount⟩ := Disk.apply_bind_eq_ok.1 hrun
  obtain ⟨-, rfl⟩ := Prod.mk.inj hcount
  obtain ⟨k, t₁, t₂, bytes, hplaced, hcontent, hreplaced⟩ :=
    Disk.refiled_of_replaceFile h.sound h.names h.ending h.old hreplace
  have hfresh : target.parent.place ++ [".file-" ++ toString k] ∉
      Sorter.runsFrom folder (order.fileName ++ "-by-value") 0 :=
    fresh_notMem_runsFrom target.parent k
  -- the content was made of what the sorter answered
  obtain ⟨byValue, t₃, hdrain, hrest⟩ := Disk.apply_bind_eq_ok.1 hcontent
  have hreads : Disk.Reads (do
      Disk.ofResult (require (byValue.length = w.count)
        (.corrupt (.secondaryRowCount byValue.length w.count)))
      return w.file byValue : Disk ByteArray) := .bind (.ofResult _) fun _ => .pure _
  obtain rfl := hreads.eq hrest
  have hclear : Sorter.Clear t₁ w.byValue.folder w.byValue.name := by
    rw [hfolder, hname]
    exact h.clear.of_refiled (.of_placed hplaced (Set.mem_singleton _))
  obtain ⟨hdrained, hsame, hgone⟩ := Sorter.drain_of_clear hclear hdrain
  rw [hfolder, hname] at hdrained hgone
  obtain ⟨hrefiled, hlookup⟩ := hreplaced _ hfresh hdrained
  refine ⟨hrefiled, fun hruns q hq => ?_, fun hruns => ?_⟩
  · obtain rfl := hsame hruns
    exact (hreplaced ∅ (Set.notMem_empty _) (.refl hplaced.sound)).1.outside q (by simpa using hq)
  · rw [hlookup _ (h.apart 0).symm, hgone hruns]
    intro heq
    exact hfresh ⟨0, Nat.le_refl 0, heq.symm⟩

/-- **A writer whose first run is missing does not finish.** -/
theorem finish_of_missing (h : Ready t folder order target) (hfolder : w.byValue.folder = folder)
    (hname : w.byValue.name = order.fileName ++ "-by-value") (hruns : 1 ≤ w.byValue.runs)
    (hmissing : t.lookup (folder.place ++ [Sorter.runName (order.fileName ++ "-by-value") 0]) =
      none) : ((w.finish target).apply t).1 = .error (.io .notFound) := by
  rw [finish]
  refine Disk.apply_bind_of_error
    (Disk.fst_apply_replaceFile h.sound h.names fun k t₁ hplaced => ?_)
  have hclear : Sorter.Clear t₁ w.byValue.folder w.byValue.name := by
    rw [hfolder, hname]
    exact h.clear.of_refiled (.of_placed hplaced (Set.mem_singleton _))
  refine Disk.apply_bind_of_error (Sorter.drain_of_missing hclear hruns ?_)
  rw [hfolder, hname, hplaced.lookup_of_ne, hmissing]
  intro heq
  exact fresh_notMem_runsFrom target.parent k ⟨0, Nat.le_refl 0, heq.symm⟩

end IndexWriter

end TripleStore
