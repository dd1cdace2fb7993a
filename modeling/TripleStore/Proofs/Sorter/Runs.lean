import TripleStore.Proofs.Disk.Directories
import TripleStore.Proofs.Sorter.Merge
import TripleStore.Sorter

/-!
# Sorters on a file tree

A sorter holds the records that were pushed, spread over its runs and its buffer (`Sorter.Holds`);
pushing one more and writing a run keep that (`push_of_holds`), and what is drained is all of them,
sorted (`drain_of_holds`). All that changes in the tree are the files of its runs.
-/

namespace TripleStore

/-! ## Names of runs -/

namespace Sorter

/-- The name of run number `i`. -/
def runName (name : String) (i : Nat) : String := name ++ "-" ++ fiveDigits i ++ ".run"

theorem toList_fiveDigits (n : Nat) : (fiveDigits n).toList =
    List.replicate (5 - (Nat.toDigits 10 n).length) '0' ++ Nat.toDigits 10 n := by
  simp only [fiveDigits, String.toList_append, String.toList_ofList,
    Nat.toString_eq_ofList_toDigits, String.length_ofList]

theorem fiveDigits_injective {k n : Nat} (h : fiveDigits k = fiveDigits n) : k = n := by
  have hlist := congrArg String.toList h
  rw [toList_fiveDigits, toList_fiveDigits] at hlist
  have hvalue := congrArg (Nat.ofDigitChars 10 · 0) hlist
  simpa [Nat.ofDigitChars_append, Nat.ofDigitChars_replicate_zero,
    Nat.ofDigitChars_ten_toDigits] using hvalue

theorem dash_notMem_fiveDigits (n : Nat) : '-' ∉ (fiveDigits n).toList := by
  rw [toList_fiveDigits]
  intro h
  rcases List.mem_append.1 h with h | h
  · exact absurd (List.eq_of_mem_replicate h) (by decide)
  · exact absurd (Nat.isDigit_of_mem_toDigits (by decide) (by decide) h) (by decide)

/-- A list is cut at its last dash in one way. -/
theorem cut_at_last_dash {a b d e : List Char} (h : a ++ '-' :: d = b ++ '-' :: e) (hd : '-' ∉ d)
    (he : '-' ∉ e) : a = b ∧ d = e := by
  rcases List.append_eq_append_iff.1 h with ⟨c, rfl, hc⟩ | ⟨c, rfl, hc⟩
  · cases c with
    | nil => simp_all
    | cons x c =>
      obtain ⟨-, rfl⟩ := List.cons_eq_cons.1 hc
      simp at hd
  · cases c with
    | nil => simp_all
    | cons x c =>
      obtain ⟨-, rfl⟩ := List.cons_eq_cons.1 hc
      simp at he

/-- Different sorters, and different runs of one sorter, have different names. -/
theorem runName_injective {a b : String} {i j : Nat} (h : runName a i = runName b j) :
    a = b ∧ i = j := by
  have hlist := congrArg String.toList h
  simp only [runName, String.toList_append] at hlist
  have hcut : a.toList ++ '-' :: (fiveDigits i).toList =
      b.toList ++ '-' :: (fiveDigits j).toList := by
    have := List.append_cancel_right hlist
    simpa using this
  obtain ⟨hname, hdigits⟩ :=
    cut_at_last_dash hcut (dash_notMem_fiveDigits i) (dash_notMem_fiveDigits j)
  exact ⟨String.toList_inj.1 hname, fiveDigits_injective (String.toList_inj.1 hdigits)⟩

theorem runName_ne_dots (name : String) (i : Nat) : runName name i ≠ ".." := by
  intro h
  have hlength := congrArg String.length h
  simp only [runName, String.length_append] at hlength
  have hrun : ".run".length = 4 := rfl
  have hdots : "..".length = 2 := rfl
  omega

/-- Names of runs end in a letter that few other names end in. -/
theorem getLast?_runName (name : String) (i : Nat) :
    (runName name i).toList.getLast? = some 'n' := by
  rw [runName, String.toList_append, List.getLast?_append]
  rfl

/-- No run has a name that is given out by counting. -/
theorem runName_ne_append_toString (name : String) (i : Nat) (stem : String) (k : Nat) :
    runName name i ≠ stem ++ toString k := by
  intro h
  have hlast := congrArg (·.toList.getLast?) h
  obtain ⟨digit, hdigit⟩ := Option.isSome_iff_exists.1
    (List.getLast?_isSome.2 (Nat.toDigits_ne_nil (n := k) (b := 10)))
  simp only [getLast?_runName, String.toList_append, Nat.toString_eq_ofList_toDigits,
    String.toList_ofList, List.getLast?_append, hdigit, Option.some_or] at hlast
  obtain rfl : 'n' = digit := Option.some.inj hlast
  exact absurd (Nat.isDigit_of_mem_toDigits (by decide) (by decide) (List.mem_of_getLast? hdigit))
    (by decide)

/-- Only files of runs changed. -/
structure OffRuns (folder : Path) (name : String) (t t' : FileTree) : Prop where
  sound : t'.Sound
  outside : ∀ q, (∀ i, q ≠ folder.place ++ [runName name i]) → t'.lookup q = t.lookup q
  given : t.given ≤ t'.given

variable {folder : Path} {name : String} {t t' t₁ : FileTree}

theorem OffRuns.refl (hs : t.Sound) : OffRuns folder name t t :=
  ⟨hs, fun _ _ => rfl, Nat.le_refl _⟩

theorem OffRuns.trans (h : OffRuns folder name t t₁) (h' : OffRuns folder name t₁ t') :
    OffRuns folder name t t' :=
  ⟨h'.sound, fun q hq => (h'.outside q hq).trans (h.outside q hq), h.given.trans h'.given⟩

/-- Directories stay where no run has the name of one. -/
theorem OffRuns.lookup_directory (h : OffRuns folder name t t')
    (hfree : ∀ i, t.lookup (folder.place ++ [runName name i]) ≠ some .directory) {q : Place}
    (hq : t.lookup q = some .directory) : t'.lookup q = some .directory := by
  rw [h.outside q fun i heq => hfree i (heq ▸ hq), hq]

/-! ## Removing runs -/

theorem runPath_eq {α : Type} (s : Sorter α) (i : Nat) :
    s.runPath i = s.folder.child (runName s.name i) := rfl

/-- Removing what can be removed of the runs changes nothing else. -/
theorem offRuns_removeRuns {files : List Path}
    (hfiles : ∀ p ∈ files, ∃ i, p = folder.child (runName name i)) (hs : t.Sound) :
    OffRuns folder name t (removeRuns files t).2 := by
  induction files generalizing t with
  | nil => exact OffRuns.refl hs
  | cons p files ih =>
    obtain ⟨i, rfl⟩ := hfiles p List.mem_cons_self
    have hplace := Path.place_child folder (runName_ne_dots name i)
    have hroot : (folder.place ++ [runName name i]).isRoot = false :=
      Place.isRoot_append folder.place_ne_nil
    have hstep : OffRuns folder name t
        ((Disk.update (·.removeFile (folder.child (runName name i)))).apply t).2 := by
      rcases Disk.snd_apply_update (·.removeFile (folder.child (runName name i))) t with
        hremove | hsame
      · obtain ⟨⟨content, hfile⟩, hdrop⟩ := FileTree.of_removeFile_eq_ok hremove
        rw [hplace] at hfile hdrop
        rw [hdrop]
        refine ⟨hs.drop hroot (hs.lookup_append (by simp [hfile]) (by simp)), fun q hq => ?_,
          Nat.le_refl _⟩
        rw [FileTree.lookup_drop hroot, if_neg (hq i)]
      · rw [hsame]
        exact OffRuns.refl hs
    exact hstep.trans (ih (fun p hp => hfiles p (List.mem_cons_of_mem _ hp)) hstep.sound)

/-! ## What pushing does -/

section

variable {α : Type} [Ord α] [Record α] {s : Sorter α} {t t' : FileTree}

/-- A buffer is written out as a run. -/
theorem apply_spill_of_ok (hbuffer : s.buffer.isEmpty = false)
    (hwrite : t.write (s.runPath s.runs) (encodeRun (sorted s.buffer.reverse)) = .ok t') :
    (spill : Build (Sorter α) Unit).apply s t =
      (.ok (), { s with buffer := [], held := 0, runs := s.runs + 1 }, t') := by
  rw [spill, Build.apply_bind_of_ok (Build.apply_get s t), if_neg (by simp [hbuffer]),
    Build.apply_bind_of_ok (by rw [Build.apply_disk, Disk.apply_update hwrite]),
    Build.apply_modify]

/-- A buffer that cannot be written out stays as it is. -/
theorem apply_spill_of_error {fault : FileFault} (hbuffer : s.buffer.isEmpty = false)
    (hwrite : t.write (s.runPath s.runs) (encodeRun (sorted s.buffer.reverse)) = .error fault) :
    (spill : Build (Sorter α) Unit).apply s t = (.error (.io fault), s, t) := by
  rw [spill, Build.apply_bind_of_ok (Build.apply_get s t), if_neg (by simp [hbuffer]),
    Build.apply_bind, Build.apply_disk, Disk.apply_update_of_error hwrite]

/-- There is nothing to write out of an empty buffer. -/
theorem apply_spill_of_isEmpty (hbuffer : s.buffer.isEmpty = true) (t : FileTree) :
    (spill : Build (Sorter α) Unit).apply s t = (.ok (), s, t) := by
  rw [spill, Build.apply_bind_of_ok (Build.apply_get s t), if_pos hbuffer]
  rfl

/-- A record is taken into the buffer, which is written out once it has reached the budget. -/
theorem apply_push (a : α) (s : Sorter α) (t : FileTree) : (push a).apply s t =
    if (s.take a).isFull then (spill : Build (Sorter α) Unit).apply (s.take a) t
    else (.ok (), s.take a, t) := by
  rw [push, Build.apply_bind_of_ok (Build.apply_modify _ s t),
    Build.apply_bind_of_ok (Build.apply_get _ t)]
  split <;> rfl

end

/-! ## What a sorter holds -/

variable {α : Type} [Ord α] [Record α]

/-- The records that a sorter has taken in: its runs, sorted, are in its folder, and the others in
its buffer. The names of its runs are free for files. -/
structure Holds (folder : Path) (name : String) (t : FileTree) (s : Sorter α)
    (records : List α) : Prop where
  folder_eq : s.folder = folder
  name_eq : s.name = name
  hasFolder : t.HasFolder folder
  free : ∀ i, t.lookup (folder.place ++ [runName name i]) ≠ some .directory
  fits : ∀ a ∈ records, Record.Fits a
  runs : ∃ lists : List (List α), lists.length = s.runs ∧ (∀ l ∈ lists, Ascending l) ∧
    (∀ i (h : i < lists.length),
      t.lookup (folder.place ++ [runName name i]) = some (.file (encodeRun lists[i]))) ∧
    (lists.flatten ++ s.buffer).Perm records

theorem holds_create (hf : t.HasFolder folder)
    (hfree : ∀ i, t.lookup (folder.place ++ [runName name i]) ≠ some .directory) (budget : Nat) :
    Holds folder name t (create folder name budget : Sorter α) [] where
  folder_eq := rfl
  name_eq := rfl
  hasFolder := hf
  free := hfree
  fits := by simp
  runs := ⟨[], rfl, by simp, by simp, List.Perm.refl _⟩

variable {s : Sorter α} {records : List α}

/-- A sorter looks at its runs only. -/
theorem Holds.of_lookup (h : Holds folder name t s records) (hf : t'.HasFolder folder)
    (hlookup : ∀ i, t'.lookup (folder.place ++ [runName name i]) =
      t.lookup (folder.place ++ [runName name i])) : Holds folder name t' s records := by
  refine { h with hasFolder := hf, free := fun i => ?_, runs := ?_ }
  · rw [hlookup]
    exact h.free i
  · obtain ⟨lists, hlength, hascending, hfiles, hperm⟩ := h.runs
    exact ⟨lists, hlength, hascending, fun i hi => by rw [hlookup, hfiles i hi], hperm⟩

/-- What other sorters do in the folder does not matter. -/
theorem Holds.of_offRuns {other : String} (h : Holds folder name t s records)
    (hf : t'.HasFolder folder) (hne : name ≠ other) (hoff : OffRuns folder other t t') :
    Holds folder name t' s records :=
  h.of_lookup hf fun i => hoff.outside _ fun j hij =>
    hne (runName_injective (by simpa using hij)).1

theorem Holds.runPath (h : Holds folder name t s records) (i : Nat) :
    s.runPath i = folder.child (runName name i) := by
  rw [runPath_eq, h.folder_eq, h.name_eq]

theorem Holds.names (h : Holds folder name t s records) (i : Nat) : t.Names (s.runPath i) := by
  rw [h.runPath]
  exact FileTree.names_child h.hasFolder (runName_ne_dots name i)

theorem Holds.place_runPath (h : Holds folder name t s records) (i : Nat) :
    (s.runPath i).place = folder.place ++ [runName name i] := by
  rw [h.runPath, Path.place_child _ (runName_ne_dots name i)]

/-- Taking a record into the buffer adds it. -/
theorem Holds.take (h : Holds folder name t s records) {a : α} (ha : Record.Fits a) :
    Holds folder name t (s.take a) (records ++ [a]) := by
  obtain ⟨lists, hlength, hascending, hfiles, hperm⟩ := h.runs
  refine { h with fits := ?_, runs := ⟨lists, hlength, hascending, hfiles, ?_⟩ }
  · intro b hb
    rcases List.mem_append.1 hb with hb | hb
    · exact h.fits b hb
    · rwa [List.mem_singleton.1 hb]
  · have : (lists.flatten ++ a :: s.buffer).Perm (a :: (lists.flatten ++ s.buffer)) :=
      List.perm_middle
    exact this.trans ((hperm.cons a).trans (List.perm_append_singleton a records).symm)

variable [Std.TransOrd α]

/-- **Writing a run loses no record.** -/
theorem spill_of_holds (hs : t.Sound) (h : Holds folder name t s records) :
    ∃ s' t', (spill : Build (Sorter α) Unit).apply s t = (.ok (), s', t') ∧
      Holds folder name t' s' records ∧ s'.buffer = [] ∧ OffRuns folder name t t' := by
  cases hempty : s.buffer.isEmpty with
  | true =>
    exact ⟨s, t, apply_spill_of_isEmpty hempty t, h, by simpa using hempty, OffRuns.refl hs⟩
  | false =>
  obtain ⟨lists, hlength, hascending, hfiles, hperm⟩ := h.runs
  let run := sorted s.buffer.reverse
  obtain ⟨t', hwrite, hplaced⟩ := h.hasFolder.write hs (runName_ne_dots name s.runs)
    (h.free _) (encodeRun run)
  rw [← h.runPath] at hwrite
  refine ⟨_, t', apply_spill_of_ok hempty hwrite, ?_, rfl, hplaced.sound, ?_, hplaced.given⟩
  · refine ⟨h.folder_eq, h.name_eq, hplaced.hasFolder h.hasFolder,
      fun i => hplaced.lookup_ne_directory (h.free i), h.fits, lists ++ [run], ?_, ?_, ?_, ?_⟩
    · simp [hlength]
    · intro l hl
      rcases List.mem_append.1 hl with hl | hl
      · exact hascending l hl
      · rw [List.mem_singleton.1 hl]
        exact ascending_sorted _
    · intro i hi
      rw [hplaced.lookup]
      by_cases hlast : i = s.runs
      · subst hlast
        simp [← hlength]
      · have hi' : i < lists.length := by
          simp only [List.length_append, List.length_singleton] at hi
          omega
        rw [if_neg, hfiles i hi', List.getElem_append_left hi']
        intro heq
        exact hlast (runName_injective (by simpa using heq)).2
    · rw [List.flatten_append, List.flatten_singleton, List.append_nil]
      exact ((sorted_reverse_perm s.buffer).append_left _).trans hperm
  · exact fun q hq => hplaced.lookup_of_ne (hq s.runs)

/-- **Pushing a record adds it.** -/
theorem push_of_holds (hs : t.Sound) (h : Holds folder name t s records) {a : α}
    (ha : Record.Fits a) :
    ∃ s' t', (push a : Build (Sorter α) Unit).apply s t = (.ok (), s', t') ∧
      Holds folder name t' s' (records ++ [a]) ∧ OffRuns folder name t t' := by
  rw [apply_push]
  split
  · obtain ⟨s', t', hrun, h', -, hoff⟩ := spill_of_holds hs (h.take ha)
    exact ⟨s', t', hrun, h', hoff⟩
  · exact ⟨_, t, rfl, h.take ha, OffRuns.refl hs⟩

/-! ## Answering -/

/-- The runs are opened as they were written. -/
theorem openRuns_of_holds (h : Holds folder name t s records) (hbuffer : s.buffer = []) :
    ∃ firsts, ((List.range s.runs).mapM s.openRun).apply t = (.ok firsts, t) ∧
      Head.Queued (firsts.foldr Head.refill []) records := by
  obtain ⟨lists, hlength, hascending, hfiles, hperm⟩ := h.runs
  rw [hbuffer, List.append_nil] at hperm
  let content (i : Nat) : List α := lists.getD i []
  have hcontent : ∀ i ∈ List.range s.runs, content i ∈ lists ∧
      t.lookup (folder.place ++ [runName name i]) = some (.file (encodeRun (content i))) := by
    intro i hi
    have hi : i < lists.length := by simpa [hlength] using hi
    have heq : lists[i] = content i := List.getElem_eq_getD []
    exact ⟨heq ▸ List.getElem_mem hi, heq ▸ hfiles i hi⟩
  have hmap : (List.range s.runs).map content = lists := by
    refine List.ext_getElem (by simp [hlength]) fun i hi hi' => ?_
    simp [content, List.getElem?_eq_getElem hi']
  have hfits : ∀ i ∈ List.range s.runs, ∀ a ∈ content i, Record.Fits a := fun i hi a ha =>
    h.fits a (hperm.mem_iff.1 (List.mem_flatten.2 ⟨_, (hcontent i hi).1, ha⟩))
  refine ⟨(List.range s.runs).map fun i => Head.first? i (content i),
    Disk.apply_mapM fun i hi => ?_, ?_⟩
  · have hread : t.read (s.runPath i) = .ok (encodeRun (content i)) :=
      (h.names i).read rfl (by rw [h.place_runPath, (hcontent i hi).2])
    rw [openRun, Disk.apply_bind_of_ok (Disk.apply_look hread), Disk.apply_ofResult, encodeRun,
      octets_toByteArray, Head.read?_flatMap_encode (hfits i hi)]
  · have hqueue := Head.queued_foldr_refill (fun i hi => hascending _ (hcontent i hi).1) hfits
    rw [hmap] at hqueue
    exact hqueue.of_perm hperm

/-- **A sorter that finishes has all of its records to answer.** -/
theorem finish_of_holds (hs : t.Sound) (h : Holds folder name t s records) :
    ∃ stream files t', s.finish.apply t = (.ok (stream, files), t') ∧ stream.Holds records ∧
      OffRuns folder name t t' ∧ ∀ p ∈ files, ∃ i, p = folder.child (runName name i) := by
  rw [finish]
  by_cases hruns : s.runs = 0
  · rw [if_pos hruns]
    obtain ⟨lists, hlength, -, -, hperm⟩ := h.runs
    obtain rfl : lists = [] := List.length_eq_zero_iff.1 (hlength.trans hruns)
    refine ⟨_, _, t, rfl, .memory (ascending_sorted _) ?_, OffRuns.refl hs, by simp⟩
    exact (sorted_reverse_perm s.buffer).trans (by simpa using hperm)
  · rw [if_neg hruns]
    obtain ⟨s₁, t₁, hspill, h₁, hbuffer, hoff⟩ := spill_of_holds hs h
    obtain ⟨firsts, hopen, hqueue⟩ := openRuns_of_holds h₁ hbuffer
    refine ⟨_, (List.range s₁.runs).map s₁.runPath, t₁, ?_, .merge hqueue, hoff, fun p hp => ?_⟩
    · rw [Disk.apply_bind_of_ok (Disk.apply_build hspill), Disk.apply_bind_of_ok hopen]
      rfl
    · obtain ⟨i, -, rfl⟩ := List.mem_map.1 hp
      exact ⟨i, h₁.runPath i⟩

/-- **Draining answers all records, sorted.** -/
theorem drain_of_holds [Std.LawfulEqOrd α] (hs : t.Sound) (h : Holds folder name t s records) :
    ∃ t', (drain s).apply t = (.ok (sorted records), t') ∧ OffRuns folder name t t' := by
  obtain ⟨stream, files, t₁, hfinish, hstream, hoff, hfiles⟩ := finish_of_holds hs h
  refine ⟨(removeRuns files t₁).2, ?_, hoff.trans (offRuns_removeRuns hfiles hoff.sound)⟩
  rw [drain, Disk.apply_bind_of_ok hfinish]
  have hremove := Disk.apply_monadLift (removeRuns files) t₁
  exact (Disk.apply_bind_of_ok hremove).trans
    (by rw [Disk.apply_ofResult, Stream.collect_of_holds hstream])

end Sorter

end TripleStore
