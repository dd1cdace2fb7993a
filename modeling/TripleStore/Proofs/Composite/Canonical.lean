import TripleStore.Proofs.Composite.Build
import TripleStore.Proofs.Opening

/-!
# Composite builds depend on their terms alone

The vocabulary of a build consists of the shared parts that enough distinct terms of the first pass
have (`isVocabulary_vocabularyOf`), its entries are those of the distinct terms of the second pass
(`areEntries_entriesOf`), and its numbers count these terms (`counts_foldl`). So neither budgets nor
the order and number of visits show in the files of a build (`canonical_of_build`).
-/

namespace TripleStore

namespace Composite

/-! ## Vocabulary, entries and numbers of sets of terms -/

/-- The shared part of a term, if the term is split. -/
def sharedPart? (splitter : Splitter) (term : String) : Option ByteArray :=
  match splitter.split term with
  | .whole _ => none
  | .parted _ shared _ => some shared.toUTF8

/-- The edge at which a term is coded, if it is split and its shared part is in the vocabulary. -/
def codedEdge? (vocabulary : List ByteArray) (splitter : Splitter) (term : String) : Option Edge :=
  match splitter.split term with
  | .whole _ => none
  | .parted edge shared _ => if shared.toUTF8 ∈ vocabulary then some edge else none

/-- The vocabulary of terms: the shared parts of at least so many of them, and of one at least, in
ascending order. -/
structure IsVocabulary (splitter : Splitter) (minReuse : Nat) (terms : Finset String)
    (vocabulary : List ByteArray) : Prop where
  ascending : StrictlyAscending vocabulary
  mem_iff : ∀ part, part ∈ vocabulary ↔
    max 1 minReuse ≤ (terms.filter (sharedPart? splitter · = some part)).card

/-- The entry of a term over a vocabulary. -/
inductive IsEntry (vocabulary : List ByteArray) (splitter : Splitter) (term : String) :
    ByteArray → Prop
  /-- The code of the shared part, which is in the vocabulary, and the remaining part. -/
  | coded {edge : Edge} {shared rest : String} {i : Nat} {code : ByteArray}
      (split : splitter.split term = .parted edge shared rest)
      (mem : vocabulary[i]? = some shared.toUTF8)
      (encoded : Code.encodeAt (i + 1) (some edge) = .ok code) :
      IsEntry vocabulary splitter term (code ++ rest.toUTF8)
  /-- The term itself, if it has no shared part in the vocabulary. -/
  | whole (unshared : ∀ part, sharedPart? splitter term = some part → part ∉ vocabulary) :
      IsEntry vocabulary splitter term term.toUTF8

/-- The entries of terms, in ascending order. -/
structure AreEntries (vocabulary : List ByteArray) (splitter : Splitter) (terms : Finset String)
    (entries : List ByteArray) : Prop where
  ascending : StrictlyAscending entries
  mem_iff : ∀ entry, entry ∈ entries ↔ ∃ term ∈ terms, IsEntry vocabulary splitter term entry

/-- The numbers of terms, of those that are coded at each edge, and of the others. -/
structure Counts (vocabulary : List ByteArray) (splitter : Splitter) (terms : Finset String)
    (stats : CompositeStats) : Prop where
  strings : stats.strings = terms.card
  shared : stats.shared = vocabulary.length
  leading : stats.leading =
    (terms.filter (codedEdge? vocabulary splitter · = some .leading)).card
  trailing : stats.trailing =
    (terms.filter (codedEdge? vocabulary splitter · = some .trailing)).card
  whole : stats.whole = (terms.filter (codedEdge? vocabulary splitter · = none)).card
  sum : stats.leading + stats.trailing + stats.whole = stats.strings

variable {settings : Settings} {splitter : Splitter} {fingerprint : String → UInt64}
  {vocabulary : List ByteArray} {first second terms : List String} {term : String}

/-! ## The vocabulary of a build -/

theorem nodup_firstVisits : (firstVisits fingerprint terms).Nodup := by
  induction terms using List.reverseRecOn with
  | nil => exact List.nodup_nil
  | append_singleton terms term ih =>
    rw [firstVisits_concat]
    split
    · exact ih
    · rename_i hnew
      refine List.nodup_append.2 ⟨ih, List.nodup_singleton _, ?_⟩
      rintro a ha b hb rfl
      rw [List.mem_singleton.1 hb] at ha
      exact hnew (List.mem_map_of_mem ha)

theorem mem_of_mem_firstVisits (h : term ∈ firstVisits fingerprint terms) : term ∈ terms := by
  induction terms using List.reverseRecOn with
  | nil => cases h
  | append_singleton terms last ih =>
    rw [firstVisits_concat] at h
    rw [List.mem_append]
    split at h
    · exact .inl (ih h)
    · exact (List.mem_append.1 h).imp_left ih

/-- If fingerprints tell terms apart, each of them has a first visit. -/
theorem toFinset_firstVisits (hinj : Set.InjOn fingerprint {term | term ∈ terms}) :
    (firstVisits fingerprint terms).toFinset = terms.toFinset := by
  ext term
  rw [List.mem_toFinset, List.mem_toFinset]
  refine ⟨mem_of_mem_firstVisits, fun hterm => ?_⟩
  obtain ⟨visited, hvisited, heq⟩ := List.mem_map.1
    (mem_map_firstVisits.2 (List.mem_map_of_mem hterm) : fingerprint term ∈ _)
  rwa [← hinj (mem_of_mem_firstVisits hvisited) hterm heq]

theorem candidate_eq_toList (splitter : Splitter) (term : String) :
    candidate splitter term = (sharedPart? splitter term).toList := by
  cases hsplit : splitter.split term <;> simp [candidate, sharedPart?, hsplit]

/-- **A shared part is proposed once for each term that has it.** -/
theorem countP_candidatesOf (hinj : Set.InjOn fingerprint {term | term ∈ terms})
    (part : ByteArray) : (candidatesOf splitter fingerprint terms).countP (· = part) =
      (terms.toFinset.filter (sharedPart? splitter · = some part)).card := by
  have hfilterMap : candidatesOf splitter fingerprint terms =
      (firstVisits fingerprint terms).filterMap (sharedPart? splitter) := by
    rw [candidatesOf, List.filterMap_eq_flatMap_toList]
    exact congrArg (List.flatMap · _) (funext (candidate_eq_toList splitter))
  calc (candidatesOf splitter fingerprint terms).countP (· = part)
      = (firstVisits fingerprint terms).countP (sharedPart? splitter · = some part) := by
        rw [hfilterMap, List.countP_filterMap]
        refine List.countP_congr fun term _ => ?_
        cases sharedPart? splitter term <;> simp
    _ = ((firstVisits fingerprint terms).filter
          (sharedPart? splitter · = some part)).toFinset.card := by
        rw [List.toFinset_card_of_nodup (nodup_firstVisits.filter _), List.countP_eq_length_filter]
    _ = (terms.toFinset.filter (sharedPart? splitter · = some part)).card := by
        rw [List.toFinset_filter, toFinset_firstVisits hinj]
        simp only [decide_eq_true_eq]

/-- **The vocabulary of a build is that of the distinct terms.** -/
theorem isVocabulary_vocabularyOf (settings : Settings)
    (hinj : Set.InjOn fingerprint {term | term ∈ terms}) :
    IsVocabulary settings.splitter settings.minSharedReuse terms.toFinset
      (vocabularyOf settings fingerprint terms) where
  ascending := strictlyAscending_vocabularyOf settings fingerprint terms
  mem_iff part := by
    have huses : ∀ {shared uses}, (shared, uses) ∈ runLengths
          (Sorter.sorted (candidatesOf settings.splitter fingerprint terms)) →
        uses = (candidatesOf settings.splitter fingerprint terms).countP (· = shared) :=
      fun hrun => (count_of_mem_runLengths (Sorter.ascending_sorted _) hrun).trans
        ((Sorter.sorted_perm _).countP_eq _)
    rw [← countP_candidatesOf hinj, Nat.max_le]
    constructor
    · intro h
      obtain ⟨⟨shared, uses⟩, hrun, hkept⟩ := List.mem_filterMap.1 h
      obtain ⟨hreuse, hkept⟩ := Option.ite_none_right_eq_some.1 hkept
      obtain rfl : shared = part := Option.some.inj hkept
      refine ⟨List.countP_pos_iff.2 ⟨shared, mem_candidatesOf_of_mem h, by simp⟩, ?_⟩
      rwa [← huses hrun]
    · rintro ⟨hused, hreuse⟩
      obtain ⟨used, hmem, heq⟩ := List.countP_pos_iff.1 hused
      rw [of_decide_eq_true heq, ← Sorter.mem_sorted, ← mem_map_fst_runLengths] at hmem
      obtain ⟨⟨shared, uses⟩, hrun, hpart⟩ := List.mem_map.1 hmem
      obtain rfl : shared = part := hpart
      refine List.mem_filterMap.2 ⟨(shared, uses), hrun, if_pos ?_⟩
      rwa [huses hrun]

/-! ## The entries of a build -/

theorem entry_of_notMem (h : ∀ part, sharedPart? splitter term = some part → part ∉ vocabulary) :
    entry vocabulary (splitter.split term) = term.toUTF8 := by
  have hjoin := Splitter.join_split splitter term
  cases hsplit : splitter.split term with
  | whole whole =>
    rw [hsplit] at hjoin
    rw [← hjoin]
    rfl
  | parted edge shared rest =>
    have hid := Dictionary.idIn_of_notMem (h shared.toUTF8 (by rw [sharedPart?, hsplit]))
    rw [entry, hid, if_pos (.inl rfl), bytes_wholeKey, ← hsplit, hjoin]

section

variable (hlt : StrictlyAscending vocabulary) (hfew : vocabulary.length < Code.limit)

include hlt hfew

/-- Over a vocabulary whose ids all have a code, an entry is coded if its shared part is there. -/
theorem entry_of_mem {shared : String} {i : Nat} (hi : vocabulary[i]? = some shared.toUTF8)
    (edge : Edge) (rest : String) : ∃ code,
      Code.encodeAt (i + 1) (some edge) = .ok code ∧
      entry vocabulary (.parted edge shared rest) = code ++ rest.toUTF8 := by
  obtain ⟨hlength, hget⟩ := List.getElem?_eq_some_iff.1 hi
  have hid : Dictionary.idIn vocabulary shared.toUTF8 = i + 1 := by
    rw [← hget, Dictionary.idIn_getElem hlt hlength]
  refine ⟨_, Code.encodeAt_eq_ok.2 ⟨edge, rfl, by omega, rfl⟩, ?_⟩
  rw [entry, hid, if_neg (by omega)]

/-- **Each term has one entry.** -/
theorem isEntry_iff {e : ByteArray} : IsEntry vocabulary splitter term e ↔
    entry vocabulary (splitter.split term) = e := by
  constructor
  · rintro (⟨hsplit, hi, hcode⟩ | hwhole)
    · obtain ⟨code, hcode', hentry⟩ := entry_of_mem hlt hfew hi _ _
      rw [hsplit, hentry, Except.ok.inj (hcode.symm.trans hcode')]
    · exact entry_of_notMem hwhole
  · rintro rfl
    by_cases h : ∃ part, sharedPart? splitter term = some part ∧ part ∈ vocabulary
    · obtain ⟨part, hpart, hmem⟩ := h
      obtain ⟨i, hi⟩ := List.getElem?_of_mem hmem
      rw [sharedPart?] at hpart
      split at hpart
      · cases hpart
      · rename_i edge shared rest hsplit
        obtain rfl := Option.some.inj hpart
        obtain ⟨code, hcode, hentry⟩ := entry_of_mem hlt hfew hi edge rest
        rw [hsplit, hentry]
        exact .coded hsplit hi hcode
    · rw [entry_of_notMem fun part hpart hmem => h ⟨part, hpart, hmem⟩]
      exact .whole fun part hpart hmem => h ⟨part, hpart, hmem⟩

/-- **The entries of a build are those of its distinct terms.** -/
theorem areEntries_entriesOf :
    AreEntries vocabulary splitter second.toFinset (entriesOf vocabulary splitter second) where
  ascending := strictlyAscending_entriesOf vocabulary splitter second
  mem_iff e := by simp only [mem_entriesOf, List.mem_toFinset, isEntry_iff hlt hfew]

/-! ## The numbers of a build -/

/-- An entry shows at which edge its term is coded. -/
theorem edge_decodeCoded?_entry (hplain : Code.looksCoded term.toUTF8 = false) :
    (Code.decodeCoded? (entry vocabulary (splitter.split term))).map (·.2.1) =
      codedEdge? vocabulary splitter term := by
  by_cases h : ∃ part, sharedPart? splitter term = some part ∧ part ∈ vocabulary
  · obtain ⟨part, hpart, hmem⟩ := h
    obtain ⟨i, hi⟩ := List.getElem?_of_mem hmem
    rw [sharedPart?] at hpart
    split at hpart
    · cases hpart
    · rename_i edge shared rest hsplit
      obtain rfl := Option.some.inj hpart
      obtain ⟨code, hcode, hentry⟩ := entry_of_mem hlt hfew hi edge rest
      rw [codedEdge?, hsplit, hentry, Code.decodeCoded?_append hcode]
      exact (if_pos hmem).symm
  · have hnot : ∀ part, sharedPart? splitter term = some part → part ∉ vocabulary :=
      fun part hpart hmem => h ⟨part, hpart, hmem⟩
    rw [entry_of_notMem hnot, Code.decodeCoded?_eq_none hplain, codedEdge?]
    cases hsplit : splitter.split term with
    | whole whole => rfl
    | parted edge shared rest => exact (if_neg (hnot _ (by rw [sharedPart?, hsplit]))).symm

/-- As many entries as terms show an edge, or none. -/
theorem countP_entriesOf (hplain : ∀ term ∈ second, Code.looksCoded term.toUTF8 = false)
    (hinj : Set.InjOn (fun term => entry vocabulary (splitter.split term))
      (second.toFinset : Set String)) (edge : Option Edge) :
    (entriesOf vocabulary splitter second).countP
        (fun e => (Code.decodeCoded? e).map (·.2.1) = edge) =
      (second.toFinset.filter (codedEdge? vocabulary splitter · = edge)).card := by
  have hnodup := (strictlyAscending_entriesOf vocabulary splitter second).nodup
  have hedge : ∀ term ∈ second.toFinset,
      (Code.decodeCoded? (entry vocabulary (splitter.split term))).map (·.2.1) =
        codedEdge? vocabulary splitter term := fun term hterm =>
    edge_decodeCoded?_entry hlt hfew (hplain term (List.mem_toFinset.1 hterm))
  rw [List.countP_eq_length_filter, ← List.toFinset_card_of_nodup (hnodup.filter _),
    List.toFinset_filter, toFinset_entriesOf, Finset.filter_image,
    Finset.card_image_of_injOn (hinj.mono (Finset.coe_subset.2 (Finset.filter_subset _ _)))]
  refine congrArg Finset.card (Finset.filter_congr fun term hterm => ?_)
  rw [decide_eq_true_eq, hedge term hterm]

end

/-- The numbers of entries, one by one. -/
theorem foldl_count_eq (entries : List ByteArray) (stats : CompositeStats) :
    entries.foldl CompositeBuilder.count stats =
      { strings := stats.strings + entries.length
        shared := stats.shared
        leading := stats.leading +
          entries.countP fun e => (Code.decodeCoded? e).map (·.2.1) = some .leading
        trailing := stats.trailing +
          entries.countP fun e => (Code.decodeCoded? e).map (·.2.1) = some .trailing
        whole := stats.whole +
          entries.countP fun e => (Code.decodeCoded? e).map (·.2.1) = none } := by
  induction entries generalizing stats with
  | nil => rfl
  | cons e entries ih =>
    rw [List.foldl_cons, ih, CompositeBuilder.count]
    rcases hcode : Code.decodeCoded? e with _ | ⟨id, edge, rest⟩
    · simp [hcode]
      omega
    · cases edge
      · simp [hcode]
        omega
      · simp [hcode]
        omega

/-- Each entry is counted once. -/
theorem sum_foldl_count (entries : List ByteArray) (stats : CompositeStats) :
    let counted := entries.foldl CompositeBuilder.count stats
    counted.leading + counted.trailing + counted.whole + stats.strings =
      stats.leading + stats.trailing + stats.whole + counted.strings := by
  induction entries generalizing stats with
  | nil => exact rfl
  | cons e entries ih =>
    have hcount : (CompositeBuilder.count stats e).leading +
        (CompositeBuilder.count stats e).trailing + (CompositeBuilder.count stats e).whole +
          stats.strings = stats.leading + stats.trailing + stats.whole +
            (CompositeBuilder.count stats e).strings := by
      unfold CompositeBuilder.count
      split <;> (simp only; omega)
    have := ih (CompositeBuilder.count stats e)
    simp only [List.foldl_cons] at this ⊢
    omega

/-- **The numbers of a build count its distinct terms.** -/
theorem counts_foldl (hlt : StrictlyAscending vocabulary)
    (hfew : vocabulary.length < Code.limit)
    (hplain : ∀ term ∈ second, Code.looksCoded term.toUTF8 = false)
    (hinj : Set.InjOn (fun term => entry vocabulary (splitter.split term))
      (second.toFinset : Set String)) :
    Counts vocabulary splitter second.toFinset
      ((entriesOf vocabulary splitter second).foldl CompositeBuilder.count
        ⟨0, vocabulary.length, 0, 0, 0⟩) := by
  have hcount := countP_entriesOf hlt hfew hplain hinj
  have hlength : (entriesOf vocabulary splitter second).length = second.toFinset.card := by
    rw [← Finset.card_image_of_injOn hinj, ← toFinset_entriesOf,
      List.toFinset_card_of_nodup (strictlyAscending_entriesOf vocabulary splitter second).nodup]
  have hsum := sum_foldl_count (entriesOf vocabulary splitter second)
    ⟨0, vocabulary.length, 0, 0, 0⟩
  simp only [Nat.zero_add, Nat.add_zero] at hsum
  have hfoldl := foldl_count_eq (entriesOf vocabulary splitter second)
    ⟨0, vocabulary.length, 0, 0, 0⟩
  rw [hcount, hcount, hcount, hlength] at hfoldl
  simp only [Nat.zero_add] at hfoldl
  exact ⟨by rw [hfoldl], by rw [hfoldl], by rw [hfoldl], by rw [hfoldl], by rw [hfoldl], hsum⟩

/-! ## Whole builds -/

/-- Two passes that a build accepts: nothing is in its way, no term looks coded, the second pass
visits as many terms as the first one and none that is new, fingerprints tell the terms apart, and
neither terms nor files have 2⁶³ bytes. -/
structure Accepted (t : FileTree) (settings : Settings) (fingerprint : String → UInt64)
    (first second : List String) (target : Destination) : Prop where
  ready : t.Ready settings.workPath target.path
  uncompressed : settings.compressRuns = false
  plain : ∀ term ∈ first, Code.looksCoded term.toUTF8 = false
  bytes : ∀ term ∈ first, term.utf8ByteSize < 2 ^ 63
  injective : Set.InjOn fingerprint {term | term ∈ first}
  seen : ∀ term ∈ second, term ∈ first
  length : second.length = first.length
  small : Small settings fingerprint first second

/-- A build succeeds with these numbers and leaves these two files. -/
def Leaves (t : FileTree) (settings : Settings) (fingerprint : String → UInt64)
    (first second : List String) (target : Destination) (stats : CompositeStats)
    (shared entries : ByteArray) : Prop :=
  ∃ t', (build settings first second target fingerprint).apply t = (.ok stats, t') ∧
    t'.load (target.path.child sharedFile) = .ok shared ∧
    t'.load (target.path.child entriesFile) = .ok entries

variable {t : FileTree} {target : Destination}

/-- A build that is accepted leaves the dictionary of its terms. -/
theorem leaves_of_accepted (h : Accepted t settings fingerprint first second target) :
    ∃ (b : CompositeBuilder) (t₁ : FileTree) (stats : CompositeStats) (c : Composite),
      (firstPass settings fingerprint first).apply t = (.ok b, t₁) ∧
      b.shared.Holds (vocabularyOf settings fingerprint first) ∧
      Leaves t settings fingerprint first second target stats c.shared.data c.entries.data ∧
      Dictionary.ofBytes c.shared.data = .ok c.shared ∧
      Dictionary.ofBytes c.entries.data = .ok c.entries ∧
      c.splitter = settings.splitter ∧
      c.Holds stats (vocabularyOf settings fingerprint first) second := by
  obtain ⟨b, t₁, stats, c, held, t', hfirst, hshared, hrun, hbuilt, hstored, hsplitter, hholds⟩ :=
    holds_of_ready h.ready h.uncompressed h.plain h.bytes h.seen h.length h.small
  obtain ⟨content, hfile, hopen⟩ := hstored.sharedFile
  obtain ⟨content', hfile', hopen'⟩ := hstored.entriesFile
  obtain ⟨rfl, -⟩ := Dictionary.opened_of_ofBytes hopen
  obtain ⟨rfl, -⟩ := Dictionary.opened_of_ofBytes hopen'
  exact ⟨b, t₁, stats, c, hfirst, hshared,
    ⟨t', hrun, hbuilt.load h.ready hstored.folder (by decide) hfile,
      hbuilt.load h.ready hstored.folder (by decide) hfile'⟩, hopen, hopen', hsplitter, hholds⟩

/-- Terms have one vocabulary. -/
theorem IsVocabulary.unique {minReuse minReuse' : Nat} {terms : Finset String}
    {vocabulary' : List ByteArray} (h : IsVocabulary splitter minReuse terms vocabulary)
    (h' : IsVocabulary splitter minReuse' terms vocabulary')
    (hreuse : max 1 minReuse' = max 1 minReuse) : vocabulary' = vocabulary :=
  eq_of_mem_iff_of_strictlyAscending h'.ascending h.ascending fun part => by
    rw [h'.mem_iff, h.mem_iff, hreuse]

/-- The entries depend on the set of terms alone. -/
theorem entriesOf_eq_of_toFinset {second' : List String}
    (h : second'.toFinset = second.toFinset) :
    entriesOf vocabulary splitter second' = entriesOf vocabulary splitter second := by
  refine eq_of_mem_iff_of_strictlyAscending (strictlyAscending_entriesOf _ _ _)
    (strictlyAscending_entriesOf _ _ _) fun e => ?_
  rw [← List.mem_toFinset, ← List.mem_toFinset, toFinset_entriesOf, toFinset_entriesOf, h]

/-- **A composite build is canonical.** The dictionary of shared parts, after the first pass and as
it is published, is the vocabulary of the distinct terms of the first pass; if it has less than 2²⁴
strings, the dictionary of entries is that of the distinct terms of the second pass, and the numbers
count these terms. Every build that splits terms the same way, with the same threshold, and is given
the same distinct terms in both passes answers the same numbers and leaves the same bytes, whatever
its budget, its tree and the order and number of its visits are. -/
theorem canonical_of_build (h : Accepted t settings fingerprint first second target) :
    ∃ (vocabulary entries : List ByteArray) (b : CompositeBuilder) (t₁ : FileTree)
      (stats : CompositeStats) (c : Composite),
      IsVocabulary settings.splitter settings.minSharedReuse first.toFinset vocabulary ∧
      (firstPass settings fingerprint first).apply t = (.ok b, t₁) ∧ b.shared.Holds vocabulary ∧
      Leaves t settings fingerprint first second target stats c.shared.data c.entries.data ∧
      Dictionary.ofBytes c.shared.data = .ok c.shared ∧ c.shared.Holds vocabulary ∧
      Dictionary.ofBytes c.entries.data = .ok c.entries ∧ c.entries.Holds entries ∧
      (vocabulary.length < Code.limit →
        AreEntries vocabulary settings.splitter second.toFinset entries ∧
        Counts vocabulary settings.splitter second.toFinset stats) ∧
      ∀ t' settings' fingerprint' first' second' target',
        Accepted t' settings' fingerprint' first' second' target' →
        settings'.splitter = settings.splitter →
        max 1 settings'.minSharedReuse = max 1 settings.minSharedReuse →
        first'.toFinset = first.toFinset → second'.toFinset = second.toFinset →
        Leaves t' settings' fingerprint' first' second' target' stats c.shared.data
          c.entries.data := by
  obtain ⟨b, t₁, stats, c, hfirst, hshared, hleaves, hopenShared, hopenEntries, hsplitter,
    hholds⟩ := leaves_of_accepted h
  have hvocabulary := isVocabulary_vocabularyOf settings h.injective
  refine ⟨_, _, b, t₁, stats, c, hvocabulary, hfirst, hshared, hleaves, hopenShared, hholds.shared,
    hopenEntries, hholds.entries, fun hfew => ⟨?_, ?_⟩,
    fun t' settings' fingerprint' first' second' target' h' hsplit hreuse hsame hsame' => ?_⟩
  · rw [hsplitter]
    exact areEntries_entriesOf hvocabulary.ascending hfew
  · have hplain : ∀ term ∈ second, Code.looksCoded term.toUTF8 = false := fun term hterm =>
      h.plain term (h.seen term hterm)
    rw [hholds.stats_eq, ← hsplitter]
    exact counts_foldl hvocabulary.ascending hfew hplain
      (injOn_entry hholds.shared hholds.entries hplain)
  · obtain ⟨-, -, stats', c', -, -, hleaves', -, -, hsplitter', hholds'⟩ := leaves_of_accepted h'
    have hvocabulary' := isVocabulary_vocabularyOf settings' h'.injective
    rw [hsplit, hsame] at hvocabulary'
    rw [hvocabulary.unique hvocabulary' hreuse] at hholds'
    have hsplitters : c'.splitter = c.splitter := by rw [hsplitter', hsplit, hsplitter]
    have hsharedFile := hholds'.sharedFile.symm.trans hholds.sharedFile
    have hentriesFile := hholds'.entriesFile
    rw [hsplitters, entriesOf_eq_of_toFinset hsame', hholds.entriesFile] at hentriesFile
    have hstats : stats' = stats := by
      rw [hholds'.stats_eq, hholds.stats_eq, hsplitters, entriesOf_eq_of_toFinset hsame']
    rwa [hstats, (Prod.mk.inj (Except.ok.inj hsharedFile)).1,
      ← (Prod.mk.inj (Except.ok.inj hentriesFile)).1] at hleaves'

/-- Two IRIs of one namespace, one of them visited twice, and once more in another order and number,
with a budget of one byte. -/
theorem canonical_of_build_reordered :
    Accepted FileTree.empty Settings.default mixedFingerprint
      ["<http://a/b>", "<http://a/c>", "<http://a/b>"]
      ["<http://a/c>", "<http://a/c>", "<http://a/b>"] ⟨⟨true, ["out"], .name⟩, "/out"⟩ ∧
    ∃ stats shared entries,
      Leaves FileTree.empty Settings.default mixedFingerprint
        ["<http://a/b>", "<http://a/c>", "<http://a/b>"]
        ["<http://a/c>", "<http://a/c>", "<http://a/b>"] ⟨⟨true, ["out"], .name⟩, "/out"⟩
        stats shared entries ∧
      Leaves FileTree.empty { Settings.default with sortBufferBytes := 1 } mixedFingerprint
        ["<http://a/c>", "<http://a/b>"] ["<http://a/b>", "<http://a/c>"]
        ⟨⟨true, ["out"], .name⟩, "/out"⟩ stats shared entries := by
  have hinj : ∀ {l : List String}, l ⊆ ["<http://a/b>", "<http://a/c>"] →
      Set.InjOn mixedFingerprint {term | term ∈ l} := fun hl =>
    injOn_of_forall (by decide) fun _ => @hl _
  have h : Accepted FileTree.empty Settings.default mixedFingerprint
      ["<http://a/b>", "<http://a/c>", "<http://a/b>"]
      ["<http://a/c>", "<http://a/c>", "<http://a/b>"] ⟨⟨true, ["out"], .name⟩, "/out"⟩ :=
    ⟨FileTree.ready_out, rfl, by decide, by decide, hinj (by simp), by decide, rfl,
      small_of_sum (by decide) (by decide)⟩
  have h' : Accepted FileTree.empty { Settings.default with sortBufferBytes := 1 } mixedFingerprint
      ["<http://a/c>", "<http://a/b>"] ["<http://a/b>", "<http://a/c>"]
      ⟨⟨true, ["out"], .name⟩, "/out"⟩ :=
    ⟨FileTree.ready_out, rfl, by decide, by decide, hinj (by simp), by decide, rfl,
      small_of_sum (by decide) (by decide)⟩
  obtain ⟨-, -, -, -, stats, c, -, -, -, hleaves, -, -, -, -, -, hothers⟩ := canonical_of_build h
  exact ⟨h, stats, _, _, hleaves, hothers _ _ _ _ _ _ h' rfl rfl (by decide) (by decide)⟩

end Composite

end TripleStore
