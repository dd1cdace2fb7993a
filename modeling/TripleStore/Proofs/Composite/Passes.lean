import TripleStore.Proofs.Composite.Entries
import TripleStore.Proofs.Dictionary.File
import TripleStore.Proofs.Sorter.Runs
import TripleStore.Proofs.Workspace

/-!
# The two passes of a composite build

The first pass collects the shared parts of the terms at their first visits
(`VocabularyBuilder.Visited`), `freeze` makes a dictionary of those that are used often enough
(`freeze_of_visited`), and the second pass stages the entries of its terms over this vocabulary
(`CompositeBuilder.Visited`).
-/

namespace TripleStore

/-! ## Vocabularies -/

namespace Composite

/-- The terms at their first visits, as far as their fingerprints tell. -/
def firstVisits (fingerprint : String → UInt64) (terms : List String) : List String :=
  terms.foldl (fun firsts term =>
    if fingerprint term ∈ firsts.map fingerprint then firsts else firsts ++ [term]) []

/-- The shared part of a term, if it is split. -/
def candidate (splitter : Splitter) (term : String) : List ByteArray :=
  match splitter.split term with
  | .whole _ => []
  | .parted _ shared _ => [shared.toUTF8]

/-- The shared parts that terms propose. -/
def candidatesOf (splitter : Splitter) (fingerprint : String → UInt64) (terms : List String) :
    List ByteArray :=
  (firstVisits fingerprint terms).flatMap (candidate splitter)

/-- The vocabulary of terms: the shared parts that are used often enough. -/
def vocabularyOf (settings : Settings) (fingerprint : String → UInt64) (terms : List String) :
    List ByteArray :=
  VocabularyBuilder.keep settings.minSharedReuse
    (Sorter.sorted (candidatesOf settings.splitter fingerprint terms))

variable {splitter : Splitter} {fingerprint : String → UInt64} {terms : List String}
  {term : String}

theorem firstVisits_concat : firstVisits fingerprint (terms ++ [term]) =
    if fingerprint term ∈ (firstVisits fingerprint terms).map fingerprint then
      firstVisits fingerprint terms
    else firstVisits fingerprint terms ++ [term] := by
  rw [firstVisits, List.foldl_append]
  rfl

theorem mem_map_firstVisits {h : UInt64} :
    h ∈ (firstVisits fingerprint terms).map fingerprint ↔ h ∈ terms.map fingerprint := by
  induction terms using List.reverseRecOn with
  | nil => rfl
  | append_singleton terms term ih =>
    rw [firstVisits_concat]
    split
    · rename_i hknown
      rw [ih, List.map_append, List.mem_append, List.map_singleton, List.mem_singleton]
      constructor
      · exact .inl
      · rintro (hmem | rfl)
        · exact hmem
        · exact ih.1 hknown
    · rw [List.map_append, List.mem_append, ih, List.map_append, List.mem_append]

theorem candidatesOf_concat (splitter : Splitter) (fingerprint : String → UInt64)
    (terms : List String) (term : String) : candidatesOf splitter fingerprint (terms ++ [term]) =
    candidatesOf splitter fingerprint terms ++
      if fingerprint term ∈ terms.map fingerprint then [] else candidate splitter term := by
  rw [candidatesOf, firstVisits_concat]
  simp only [mem_map_firstVisits]
  split
  · exact (List.append_nil _).symm
  · rw [List.flatMap_append, List.flatMap_singleton]
    rfl

theorem strictlyAscending_vocabularyOf (settings : Settings) (fingerprint : String → UInt64)
    (terms : List String) : StrictlyAscending (vocabularyOf settings fingerprint terms) := by
  have hruns := strictlyAscending_runLengths
    (Sorter.ascending_sorted (candidatesOf settings.splitter fingerprint terms))
  refine List.pairwise_filterMap.2 ((List.pairwise_map.1 hruns).imp ?_)
  rintro ⟨a, m⟩ ⟨b, n⟩ hab a' ha b' hb
  obtain ⟨-, ha⟩ := Option.ite_none_right_eq_some.1 ha
  obtain ⟨-, hb⟩ := Option.ite_none_right_eq_some.1 hb
  rw [← Option.some.inj ha, ← Option.some.inj hb]
  exact hab

/-! ## Sizes -/

/-- Shared part and remaining part make up the term. -/
theorem size_of_split {edge : Edge} {shared rest : String}
    (h : splitter.split term = .parted edge shared rest) :
    shared.utf8ByteSize + rest.utf8ByteSize = term.utf8ByteSize := by
  have hjoin := Splitter.join_split splitter term
  rw [h] at hjoin
  rw [← hjoin]
  cases edge
  · exact (String.utf8ByteSize_append).symm
  · exact (Nat.add_comm _ _).trans (String.utf8ByteSize_append).symm

theorem size_of_mem_candidate {bytes : ByteArray} (h : bytes ∈ candidate splitter term) :
    bytes.size ≤ term.utf8ByteSize := by
  rw [candidate] at h
  split at h
  · cases h
  · rename_i edge shared rest hsplit
    rw [List.mem_singleton.1 h, ← size_of_split hsplit]
    exact Nat.le_add_right _ _

/-- An entry is longer than its term by a code at most. -/
theorem size_entry_le (vocabulary : List ByteArray) (splitter : Splitter) (term : String) :
    (entry vocabulary (splitter.split term)).size ≤ term.utf8ByteSize + 5 := by
  have hjoin := Splitter.join_split splitter term
  cases hsplit : splitter.split term with
  | whole whole =>
    rw [hsplit] at hjoin
    rw [← hjoin]
    exact Nat.le_add_right _ _
  | parted edge shared rest =>
    have hsize := size_of_split hsplit
    rw [hsplit] at hjoin
    rw [entry]
    split
    · rw [bytes_wholeKey, hjoin]
      exact Nat.le_add_right _ _
    · rw [ByteArray.size_append]
      have hcode : (Code.symbols (Dictionary.idIn vocabulary shared.toUTF8) ++
          [Code.mark edge]).toByteArray.size = 5 := by
        simp [size_eq_length_octets, Code.symbols]
      have hrest : rest.toUTF8.size = rest.utf8ByteSize := rfl
      omega

/-- A kept shared part was proposed. -/
theorem mem_candidatesOf_of_mem {settings : Settings} {bytes : ByteArray}
    (h : bytes ∈ vocabularyOf settings fingerprint terms) :
    bytes ∈ candidatesOf settings.splitter fingerprint terms := by
  obtain ⟨⟨shared, uses⟩, hrun, hkept⟩ := List.mem_filterMap.1 h
  obtain ⟨-, hkept⟩ := Option.ite_none_right_eq_some.1 hkept
  rw [← Option.some.inj hkept, ← Sorter.mem_sorted, ← mem_map_fst_runLengths]
  exact List.mem_map_of_mem hrun

/-- The shared parts that terms propose are no longer than the terms. -/
theorem room_candidatesOf_le (splitter : Splitter) (fingerprint : String → UInt64)
    (terms : List String) : Dictionary.room (candidatesOf splitter fingerprint terms) ≤
      (terms.map (·.utf8ByteSize + 8)).sum := by
  induction terms using List.reverseRecOn with
  | nil => exact Nat.le_refl 0
  | append_singleton terms term ih =>
    have hcandidate : Dictionary.room (candidate splitter term) ≤ term.utf8ByteSize + 8 := by
      rw [candidate]
      split
      · exact Nat.zero_le _
      · rename_i edge shared rest hsplit
        have hsize : shared.toUTF8.size = shared.utf8ByteSize := rfl
        rw [← size_of_split hsplit, Dictionary.room_singleton]
        omega
    have hlast : Dictionary.room (if fingerprint term ∈ terms.map fingerprint then []
        else candidate splitter term) ≤ term.utf8ByteSize + 8 := by
      split
      · exact Nat.zero_le _
      · exact hcandidate
    rw [candidatesOf_concat, Dictionary.room_append, List.map_append, List.sum_append,
      List.map_singleton, List.sum_singleton]
    exact Nat.add_le_add ih hlast

/-- Entries are longer than their terms by a code at most. -/
theorem room_entries_le (vocabulary : List ByteArray) (splitter : Splitter) (terms : List String) :
    Dictionary.room (terms.map fun term => entry vocabulary (splitter.split term)) ≤
      (terms.map (·.utf8ByteSize + 13)).sum := by
  induction terms with
  | nil => exact Nat.le_refl 0
  | cons term terms ih =>
    have hsize := size_entry_le vocabulary splitter term
    rw [List.map_cons, List.map_cons, List.sum_cons, ← List.singleton_append,
      Dictionary.room_append, Dictionary.room_singleton]
    omega

/-! ### The file of the vocabulary -/

theorem openDictionary_of_lookup {name : String} {d : Dictionary} (hf : t.HasFolder p)
    (hname : name ≠ "..") (h : ∃ content, t.lookup (p.place ++ [name]) = some (.file content) ∧
      Dictionary.ofBytes content = .ok d) :
    (openDictionary (p.child name)).apply t = (.ok d, t) := by
  obtain ⟨content, hfile, hopen⟩ := h
  have hload : t.load (p.child name) = .ok content :=
    (FileTree.names_child hf hname).load rfl (by rw [Path.place_child p hname, hfile])
  rw [openDictionary, Disk.apply_bind_of_ok (Disk.apply_look hload), Disk.apply_ofResult, hopen]

/-- No run has the name of the file of the vocabulary. -/
theorem sharedFile_ne_runName (name : String) (i : Nat) : sharedFile ≠ Sorter.runName name i := by
  intro h
  have hlast := Sorter.getLast?_runName name i
  rw [← h] at hlast
  exact absurd hlast (by decide)

end Composite

/-! ## The first pass -/

namespace VocabularyBuilder

open Composite

/-- A first pass has visited terms. Besides its runs, no name in its directory is taken by another
directory. -/
structure Visited (settings : Settings) (fingerprint : String → UInt64) (folder : Path)
    (t : FileTree) (b : VocabularyBuilder) (terms : List String) : Prop where
  settings_eq : b.settings = settings
  fingerprint_eq : b.fingerprint = fingerprint
  workspace : b.workspace = ⟨folder⟩
  candidates : Sorter.Holds folder "candidates" t b.candidates
    (candidatesOf settings.splitter fingerprint terms)
  free : ∀ name, (∀ i, name ≠ Sorter.runName "candidates" i) →
    t.lookup (folder.place ++ [name]) ≠ some .directory
  seen : ∀ h, b.seen.contains h = true ↔ h ∈ terms.map fingerprint
  visits : b.visits = terms.length

variable {settings : Settings} {fingerprint : String → UInt64} {folder : Path} {t : FileTree}
  {b : VocabularyBuilder} {terms : List String} {term : String}

theorem free_of_offRuns {t' : FileTree} (h : b.Visited settings fingerprint folder t terms)
    (hoff : Sorter.OffRuns folder "candidates" t t') (name : String)
    (hname : ∀ i, name ≠ Sorter.runName "candidates" i) :
    t'.lookup (folder.place ++ [name]) ≠ some .directory := by
  rw [hoff.outside _ fun i heq => hname i (by simpa using heq)]
  exact h.free name hname

/-- A noted term is known from then on. -/
theorem contains_note (h : b.Visited settings fingerprint folder t terms) (k : UInt64) :
    (b.note term).seen.contains k = true ↔ k ∈ (terms ++ [term]).map fingerprint := by
  have hseen : (b.note term).seen = b.seen.insert (fingerprint term) := by
    rw [← h.fingerprint_eq]
    rfl
  rw [hseen, Std.TreeSet.contains_insert, Bool.or_eq_true, h.seen, List.map_append, List.mem_append,
    List.map_singleton, List.mem_singleton, beq_iff_eq, Std.LawfulEqOrd.compare_eq_iff_eq, or_comm,
    eq_comm (a := k)]

/-- **The first pass takes every term that does not look coded.** -/
theorem visit_of_visited (hs : t.Sound) (h : b.Visited settings fingerprint folder t terms)
    (hplain : Code.looksCoded term.toUTF8 = false) (hsmall : term.utf8ByteSize < 2 ^ 63) :
    ∃ b' t', (visit term).apply b t = (.ok (), b', t') ∧
      b'.Visited settings fingerprint folder t' (terms ++ [term]) ∧
      t.Inside folder.place t' := by
  have hf := h.candidates.hasFolder.lookup_place
  have hcandidates := candidatesOf_concat settings.splitter fingerprint terms term
  rw [visit, Build.apply_require_of_pos hplain, Build.apply_bind_of_ok (Build.apply_get b t)]
  simp only [h.fingerprint_eq, h.settings_eq]
  rw [Build.apply_bind_of_ok (Build.apply_modify _ b t)]
  by_cases hknown : b.seen.contains (fingerprint term) = true
  · rw [if_pos hknown]
    rw [if_pos ((h.seen _).1 hknown), List.append_nil] at hcandidates
    refine ⟨b.note term, t, rfl, ⟨h.settings_eq, h.fingerprint_eq, h.workspace, ?_,
      h.free, contains_note h, ?_⟩, FileTree.Inside.refl hs hf⟩
    · rw [hcandidates]
      exact h.candidates
    · simp [note, h.visits]
  · rw [if_neg hknown]
    rw [if_neg fun hmem => hknown ((h.seen _).2 hmem)] at hcandidates
    cases hsplit : settings.splitter.split term with
    | whole whole =>
      rw [candidate, hsplit, List.append_nil] at hcandidates
      refine ⟨b.note term, t, rfl, ⟨h.settings_eq, h.fingerprint_eq, h.workspace, ?_,
        h.free, contains_note h, ?_⟩, FileTree.Inside.refl hs hf⟩
      · rw [hcandidates]
        exact h.candidates
      · simp [note, h.visits]
    | parted edge shared rest =>
      have hmem : shared.toUTF8 ∈ candidate settings.splitter term := by
        rw [candidate, hsplit]
        exact List.mem_singleton_self _
      have hfits : Record.Fits shared.toUTF8 := by
        have hsize := size_of_mem_candidate hmem
        exact fits_bytes (by rw [limit64]; omega)
      rw [candidate, hsplit] at hcandidates
      obtain ⟨s', t', hpush, hholds, hoff⟩ := Sorter.push_of_holds hs h.candidates hfits
      refine ⟨{ b.note term with candidates := s' }, t', ?_, ⟨h.settings_eq, h.fingerprint_eq,
        h.workspace, ?_, free_of_offRuns h hoff, contains_note h, ?_⟩, hoff.inside hf⟩
      · change (Build.part _ _ _).apply _ _ = _
        rw [Build.apply_part, show (b.note term).candidates = b.candidates from rfl, hpush]
      · rw [hcandidates]
        exact hholds
      · simp [note, h.visits]

/-- **The first pass refuses a term that looks coded**, and goes on as if it had not seen it. -/
theorem visit_of_looksCoded (hcoded : Code.looksCoded term.toUTF8 = true) (b : VocabularyBuilder)
    (t : FileTree) : (visit term).apply b t = (.error (.invalid .codedTerm), b, t) := by
  rw [visit, Build.apply_require_of_neg (by rw [hcoded]; decide)]

/-- **The first pass takes terms that do not look coded.** -/
theorem forM_visit_of_visited (hs : t.Sound) (h : b.Visited settings fingerprint folder t [])
    {terms : List String} (hplain : ∀ term ∈ terms, Code.looksCoded term.toUTF8 = false)
    (hsmall : ∀ term ∈ terms, term.utf8ByteSize < 2 ^ 63) :
    ∃ b' t', (terms.forM visit).apply b t = (.ok (), b', t') ∧
      b'.Visited settings fingerprint folder t' terms ∧ t.Inside folder.place t' := by
  have hf := h.candidates.hasFolder.lookup_place
  refine Build.forM_of_step (P := fun before b' t' =>
    VocabularyBuilder.Visited settings fingerprint folder t' b' before ∧ t.Inside folder.place t')
    (fun before term after b₁ t₁ hterms h₁ => ?_) ⟨h, FileTree.Inside.refl hs hf⟩
  obtain ⟨hvisited, hinside⟩ := h₁
  have hterm : term ∈ terms := by simp [hterms]
  obtain ⟨b₂, t₂, hvisit, hvisited₂, hinside₂⟩ :=
    visit_of_visited hinside.sound hvisited (hplain term hterm) (hsmall term hterm)
  exact ⟨b₂, t₂, hvisit, hvisited₂, hinside.trans hinside₂⟩

/-- **A build starts with a first pass over nothing.** -/
theorem create_visited (hs : t.Sound) (hp : t.Passable settings.workPath)
    (hc : settings.compressRuns = false) (fingerprint : String → UInt64) :
    ∃ name b t', (create settings fingerprint).apply t = (.ok b, t') ∧ name ≠ ".." ∧
      t.Opened settings.workPath name t' ∧
      b.Visited settings fingerprint (settings.workPath.child name) t' [] := by
  have hstem : "composite-" ∈ temporaryStems := by decide
  obtain ⟨name, t', hcreate, hdots, ho⟩ := Workspace.create_of_passable hs hp hc hstem
  refine ⟨name, ⟨settings, fingerprint, ⟨settings.workPath.child name⟩,
    Sorter.create (settings.workPath.child name) "candidates" settings.sortBufferBytes, ∅, 0⟩, t',
    ?_, hdots, ho, ⟨rfl, rfl, rfl, ?_, fun other _ => ?_, fun h => ?_, rfl⟩⟩
  · rw [create, Disk.apply_bind_of_ok hcreate]
    rfl
  · exact Sorter.holds_create_of_opened hs hdots ho "candidates" settings.sortBufferBytes
  · rw [Path.place_child _ hdots, ho.lookup_below hs (List.prefix_append _ _) (by simp)]
    simp
  · simp

end VocabularyBuilder

/-! ## The second pass -/

namespace CompositeBuilder

open Composite

/-- A second pass has visited terms, over the vocabulary of the first pass, whose file is in the
directory of the build. -/
structure Visited (settings : Settings) (fingerprint : String → UInt64) (folder : Path)
    (first : List String) (t : FileTree) (b : CompositeBuilder) (terms : List String) : Prop where
  splitter_eq : b.splitter = settings.splitter
  fingerprint_eq : b.fingerprint = fingerprint
  workspace : b.workspace = ⟨folder⟩
  shared : b.shared.Holds (vocabularyOf settings fingerprint first)
  opens : Dictionary.ofBytes b.shared.data = .ok b.shared
  sharedFile : Dictionary.fileOf (vocabularyOf settings fingerprint first) 0 0 =
    .ok (b.shared.data, (vocabularyOf settings fingerprint first).length)
  stored : t.lookup (folder.place ++ [Composite.sharedFile]) = some (.file b.shared.data)
  entries : Sorter.Holds folder "strings" t b.entries (terms.map fun term =>
    entry (vocabularyOf settings fingerprint first) (settings.splitter.split term))
  seen : ∀ h, b.seen.contains h = true ↔ h ∈ first.map fingerprint
  expected : b.expected = first.length
  visits : b.visits = terms.length

variable {settings : Settings} {fingerprint : String → UInt64} {folder : Path}
  {first terms : List String} {t : FileTree} {b : CompositeBuilder} {term : String}

/-- The file of the vocabulary stays. -/
theorem stored_of_offRuns {t' : FileTree}
    (h : b.Visited settings fingerprint folder first t terms)
    (hoff : Sorter.OffRuns folder "strings" t t') :
    t'.lookup (folder.place ++ [Composite.sharedFile]) = some (.file b.shared.data) := by
  rw [hoff.outside _ fun i heq => sharedFile_ne_runName "strings" i (by simpa using heq), h.stored]

/-- **The second pass takes every term that the first pass saw.** -/
theorem visit_of_visited (hs : t.Sound)
    (h : b.Visited settings fingerprint folder first t terms) (hseen : term ∈ first)
    (hsmall : term.utf8ByteSize < 2 ^ 63) :
    ∃ b' t', (visit term).apply b t = (.ok (), b', t') ∧
      b'.Visited settings fingerprint folder first t' (terms ++ [term]) ∧
      t.Inside folder.place t' := by
  have hf := h.entries.hasFolder.lookup_place
  have hcontains : b.seen.contains (b.fingerprint term) = true := by
    rw [h.fingerprint_eq, h.seen]
    exact List.mem_map_of_mem hseen
  have hentry : entryOf b.shared (b.splitter.split term) =
      .ok (entry (vocabularyOf settings fingerprint first) (settings.splitter.split term)) := by
    rw [h.splitter_eq]
    exact entryOf_eq h.shared _
  have hfits : Record.Fits
      (entry (vocabularyOf settings fingerprint first) (settings.splitter.split term)) := by
    have hsize := size_entry_le (vocabularyOf settings fingerprint first) settings.splitter term
    exact fits_bytes (by rw [limit64]; omega)
  obtain ⟨s', t', hpush, hholds, hoff⟩ := Sorter.push_of_holds hs h.entries hfits
  have hstored := stored_of_offRuns h hoff
  refine ⟨{ b with visits := b.visits + 1, entries := s' }, t', ?_, ⟨h.splitter_eq,
    h.fingerprint_eq, h.workspace, h.shared, h.opens, h.sharedFile, hstored, ?_,
    h.seen, h.expected, ?_⟩, hoff.inside hf⟩
  · rw [visit, Build.apply_bind_of_ok (Build.apply_get b t), Build.apply_require_of_pos hcontains]
    rw [hentry, Build.apply_bind_of_ok (Build.apply_modify _ b t),
      Build.apply_bind_of_ok (Build.apply_ofResult _ _ t), stage, Build.apply_part, hpush]
  · rw [List.map_append]
    exact hholds
  · simp [h.visits]

/-- **The second pass refuses a term whose fingerprint the first pass did not see**, and goes on as
if it had not seen it either. -/
theorem visit_of_unseen (h : b.Visited settings fingerprint folder first t terms)
    (hunseen : fingerprint term ∉ first.map fingerprint) :
    (visit term).apply b t = (.error (.unseenTerm term), b, t) := by
  rw [visit, Build.apply_bind_of_ok (Build.apply_get b t), Build.apply_require_of_neg]
  rw [h.fingerprint_eq, h.seen]
  exact hunseen

/-- **The second pass takes terms that the first pass saw.** -/
theorem forM_visit_of_visited (hs : t.Sound)
    (h : b.Visited settings fingerprint folder first t []) {terms : List String}
    (hseen : ∀ term ∈ terms, term ∈ first) (hsmall : ∀ term ∈ first, term.utf8ByteSize < 2 ^ 63) :
    ∃ b' t', (terms.forM visit).apply b t = (.ok (), b', t') ∧
      b'.Visited settings fingerprint folder first t' terms ∧ t.Inside folder.place t' := by
  have hf := h.entries.hasFolder.lookup_place
  refine Build.forM_of_step (P := fun before b' t' =>
    CompositeBuilder.Visited settings fingerprint folder first t' b' before ∧
      t.Inside folder.place t')
    (fun before term after b₁ t₁ hterms h₁ => ?_) ⟨h, FileTree.Inside.refl hs hf⟩
  obtain ⟨hvisited, hinside⟩ := h₁
  have hterm : term ∈ first := hseen term (by simp [hterms])
  obtain ⟨b₂, t₂, hvisit, hvisited₂, hinside₂⟩ :=
    visit_of_visited hinside.sound hvisited hterm (hsmall term hterm)
  exact ⟨b₂, t₂, hvisit, hvisited₂, hinside.trans hinside₂⟩

/-- A second pass that counted other visits than expected does not write. -/
theorem write_of_visits_ne (hvisits : b.visits ≠ b.expected) (target : Destination) :
    ((b.write target).apply t).1 = .error (.invalid .visitCount) := by
  rw [write, Workspace.consume]
  refine Disk.apply_bind_of_error ?_
  rw [Workspace.guarding, Disk.fst_apply_undoing]
  refine Disk.apply_bind_of_error ?_
  rw [Disk.apply_ofResult, require, if_neg hvisits]

end CompositeBuilder

/-- **The vocabulary of the first pass is frozen**, unless its file is too large. -/
theorem VocabularyBuilder.freeze_of_visited {settings : Settings} {fingerprint : String → UInt64}
    {folder : Path} {t : FileTree} {b : VocabularyBuilder} {terms : List String} (hs : t.Sound)
    (h : b.Visited settings fingerprint folder t terms)
    (hsize : ∀ file n, Dictionary.fileOf (Composite.vocabularyOf settings fingerprint terms) 0 0 =
      .ok (file, n) → file.size < 2 ^ 63) :
    ∃ b' t', (freeze b).apply t = (.ok b', t') ∧
      b'.Visited settings fingerprint folder terms t' [] ∧ t.Inside folder.place t' := by
  have hf := h.candidates.hasFolder.lookup_place
  obtain ⟨t', hdrain, hoff⟩ := Sorter.drain_of_holds hs h.candidates
  obtain ⟨file, hfile, -, hopens⟩ := Dictionary.holds_of_fileOf
    (Composite.strictlyAscending_vocabularyOf settings fingerprint terms) 0 0
  have hlimit : file.size < limit64 := by
    have := hsize file _ hfile
    rw [limit64]
    omega
  obtain ⟨shared, hopen, hshared, hdata, -, -⟩ := hopens hlimit
  have hfolder := h.candidates.hasFolder.mono fun _ => hoff.lookup_directory h.candidates.free
  -- the file of the vocabulary goes into the private directory
  have hdots : Composite.sharedFile ≠ ".." := by decide
  have hfree := free_of_offRuns h hoff
  obtain ⟨t'', hwrite, hplaced⟩ := Dictionary.writeFile_of_fileOf hfile
    (FileTree.allowsFile_child hoff.sound hfolder hdots
      (hfree _ (Composite.sharedFile_ne_runName "candidates")))
  rw [Path.place_child folder hdots] at hplaced
  have hfolder' := hplaced.hasFolder hfolder
  have hreads := Composite.openDictionary_of_lookup hfolder' hdots
    ⟨file, hplaced.lookup_self, hopen⟩
  refine ⟨⟨settings.splitter, fingerprint, ⟨folder⟩, shared,
    Sorter.create folder "strings" settings.sortBufferBytes, b.seen, b.visits, 0⟩, t'', ?_,
    ⟨rfl, rfl, rfl, hshared, by rw [hdata, hopen], by rw [hdata, hfile],
      by rw [hplaced.lookup_self, hdata], ?_, h.seen, h.visits, rfl⟩,
    (hoff.inside hf).trans (hplaced.inside_child hfolder.lookup_place)⟩
  · rw [freeze]
    refine Workspace.apply_guarding _ ?_
    have hcheck : b.workspace.check.apply t = (.ok (), t) := by
      rw [h.workspace]
      exact Disk.requireFolder_of_hasFolder h.candidates.hasFolder
    rw [Disk.apply_bind_of_ok hcheck, Disk.apply_bind_of_ok hdrain]
    simp only [h.settings_eq, h.fingerprint_eq, h.workspace]
    exact (Disk.apply_bind_of_ok hwrite).trans (Disk.apply_bind_of_ok hreads)
  · refine Sorter.holds_create hfolder' (fun i => hplaced.lookup_ne_directory (hfree _ ?_)) _
    intro j heq
    exact absurd (Sorter.runName_injective heq).1 (by decide)

end TripleStore
