import Mathlib.Data.Finset.Card
import TripleStore.Composite.Builder
import TripleStore.Proofs.Composite.Lookup
import TripleStore.Proofs.Dictionary.RoundTrip

/-!
# Entries of a composite dictionary

Over a vocabulary every split term has one entry (`Composite.entry`): it is what a build stages and
what a look-up searches for. A composite dictionary that holds the entries of terms resolves exactly
these terms (`resolves_of_holds`): no two terms have the same entry, since the id of an entry is
read back as its term.
-/

namespace TripleStore

namespace Composite

/-- The entry of a split term over a vocabulary: coded if the shared part has an id that can be
coded, else the whole term. -/
def entry (vocabulary : List ByteArray) (s : Split) : ByteArray :=
  match s with
  | .whole term => term.toUTF8
  | .parted edge part rest =>
    let id := Dictionary.idIn vocabulary part.toUTF8
    if id = 0 ∨ Code.limit ≤ id then (wholeKey s).bytes
    else (Code.symbols id ++ [Code.mark edge]).toByteArray ++ rest.toUTF8

/-- The distinct entries of terms, in order. -/
def entriesOf (vocabulary : List ByteArray) (splitter : Splitter) (terms : List String) :
    List ByteArray :=
  (runLengths (Sorter.sorted (terms.map fun term => entry vocabulary (splitter.split term)))).map
    (·.1)

theorem strictlyAscending_entriesOf (vocabulary : List ByteArray) (splitter : Splitter)
    (terms : List String) : StrictlyAscending (entriesOf vocabulary splitter terms) :=
  strictlyAscending_runLengths (Sorter.ascending_sorted _)

theorem mem_entriesOf {vocabulary : List ByteArray} {splitter : Splitter} {terms : List String}
    {e : ByteArray} : e ∈ entriesOf vocabulary splitter terms ↔
      ∃ term ∈ terms, entry vocabulary (splitter.split term) = e := by
  rw [entriesOf, mem_map_fst_runLengths, Sorter.mem_sorted, List.mem_map]

theorem toFinset_entriesOf (vocabulary : List ByteArray) (splitter : Splitter)
    (terms : List String) : (entriesOf vocabulary splitter terms).toFinset =
      terms.toFinset.image fun term => entry vocabulary (splitter.split term) := by
  ext e
  simp [mem_entriesOf]

variable {vocabulary entries : List ByteArray} {shared : Dictionary} {c : Composite}
  {terms : List String}

/-- **A build stages the entry of a term.** -/
theorem entryOf_eq (h : shared.Holds vocabulary) (s : Split) :
    CompositeBuilder.entryOf shared s = .ok (entry vocabulary s) := by
  cases s with
  | whole term => rfl
  | parted edge part rest =>
    have hfind : shared.find (.whole part.toUTF8) = .ok (Dictionary.idIn vocabulary part.toUTF8) :=
      Dictionary.find_of_holds h _
    simp only [CompositeBuilder.entryOf, entry, hfind, bind, Except.bind]
    split
    · rfl
    · rename_i hcoded
      rw [Code.encodeAt_eq_ok.2 ⟨edge, rfl, by omega, rfl⟩]
      rfl

/-- **A look-up searches for the entry of a term**, unless the term could be taken for a coded one.
-/
theorem findSplit_of_holds (hs : c.shared.Holds vocabulary) (he : c.entries.Holds entries)
    (s : Split) : c.findSplit s = .ok (Dictionary.idIn entries (entry vocabulary s)) ∨
      Code.looksCoded s.join.toUTF8 = true ∧ c.findSplit s = .ok 0 := by
  have hwhole : ∀ key : Key, key.bytes = s.join.toUTF8 → entry vocabulary s = key.bytes →
      c.findWhole key = .ok (Dictionary.idIn entries (entry vocabulary s)) ∨
        Code.looksCoded s.join.toUTF8 = true ∧ c.findWhole key = .ok 0 := by
    intro key hkey hentry
    rw [findWhole, Code.looksCoded_extract, hkey]
    cases Code.looksCoded s.join.toUTF8 with
    | true => exact .inr ⟨rfl, if_pos rfl⟩
    | false =>
      rw [hentry]
      exact .inl (Dictionary.find_of_holds he key)
  cases s with
  | whole term => exact hwhole _ rfl rfl
  | parted edge part rest =>
    have hfind : c.shared.find (.whole part.toUTF8) =
        .ok (Dictionary.idIn vocabulary part.toUTF8) := Dictionary.find_of_holds hs _
    simp only [findSplit, hfind, bind, Except.bind]
    by_cases hcoded : Dictionary.idIn vocabulary part.toUTF8 = 0 ∨
        Code.limit ≤ Dictionary.idIn vocabulary part.toUTF8
    · rw [if_pos hcoded]
      exact hwhole _ (bytes_wholeKey _) (if_pos hcoded)
    · rw [if_neg hcoded, Code.encodeAt_eq_ok.2 ⟨edge, rfl, by omega, rfl⟩]
      refine .inl ((Dictionary.find_of_holds he _).trans ?_)
      rw [entry, if_neg hcoded]
      rfl

/-- A composite dictionary resolves exactly some terms: these have the ids from 1 on, an id is read
back as its term, other terms have no id, and other ids have no term. -/
structure Resolves (c : Composite) (terms : Finset String) : Prop where
  count : c.count = terms.card
  find : ∀ term ∈ terms, ∃ id, c.find term = .ok id ∧ 1 ≤ id ∧ id ≤ terms.card ∧
    c.get id = .ok term
  get : ∀ id, 1 ≤ id → id ≤ terms.card → ∃ term ∈ terms, c.get id = .ok term ∧
    c.find term = .ok id
  absent : ∀ term, term ∉ terms → c.find term = .ok 0
  outside : ∀ id, id = 0 ∨ terms.card < id →
    c.get id = .error (.outOfRange .termId id (terms.card + 1))

section

variable (hs : c.shared.Holds vocabulary)
  (he : c.entries.Holds (entriesOf vocabulary c.splitter terms))

include hs he

/-- A term is found at its entry, and is read back there. -/
theorem find_of_getElem {term : String} (hplain : Code.looksCoded term.toUTF8 = false) {i : Nat}
    (hi : i < (entriesOf vocabulary c.splitter terms).length)
    (hentry : entry vocabulary (c.splitter.split term) =
      (entriesOf vocabulary c.splitter terms)[i]) :
    c.find term = .ok (i + 1) ∧ c.get (i + 1) = .ok term := by
  have hfind : c.find term = .ok (i + 1) := by
    rcases findSplit_of_holds hs he (c.splitter.split term) with hfind | ⟨hcoded, -⟩
    · rw [hentry, Dictionary.idIn_getElem he.ascending hi] at hfind
      exact hfind
    · rw [Splitter.join_split, hplain] at hcoded
      cases hcoded
  have hget := get_of_findSplit hfind (Nat.succ_ne_zero i)
  rw [Splitter.join_split] at hget
  exact ⟨hfind, hget⟩

/-- Each term has an entry. -/
theorem exists_find_of_mem (hplain : ∀ term ∈ terms, Code.looksCoded term.toUTF8 = false)
    {term : String} (hterm : term ∈ terms) :
    ∃ i, ∃ hi : i < (entriesOf vocabulary c.splitter terms).length,
      (entriesOf vocabulary c.splitter terms)[i] = entry vocabulary (c.splitter.split term) ∧
      c.find term = .ok (i + 1) ∧ c.get (i + 1) = .ok term := by
  obtain ⟨i, hi, hentry⟩ := List.getElem_of_mem (mem_entriesOf.2 ⟨term, hterm, rfl⟩)
  exact ⟨i, hi, hentry, find_of_getElem hs he (hplain term hterm) hi hentry.symm⟩

/-- **Different terms have different entries.** -/
theorem injOn_entry (hplain : ∀ term ∈ terms, Code.looksCoded term.toUTF8 = false) :
    Set.InjOn (fun term => entry vocabulary (c.splitter.split term))
      (terms.toFinset : Set String) := by
  intro a ha b hb hab
  obtain ⟨i, hi, hentry, hfind, hget⟩ := exists_find_of_mem hs he hplain (by simpa using ha)
  have hget' := (find_of_getElem hs he (hplain b (by simpa using hb)) hi
    (hab.symm.trans hentry.symm)).2
  exact Except.ok.inj (hget.symm.trans hget')

theorem length_entriesOf (hplain : ∀ term ∈ terms, Code.looksCoded term.toUTF8 = false) :
    (entriesOf vocabulary c.splitter terms).length = terms.toFinset.card := by
  rw [← Finset.card_image_of_injOn (injOn_entry hs he hplain), ← toFinset_entriesOf,
    List.toFinset_card_of_nodup he.ascending.nodup]

/-- **A composite dictionary that holds the entries of terms resolves exactly these terms.** -/
theorem resolves_of_holds (hplain : ∀ term ∈ terms, Code.looksCoded term.toUTF8 = false) :
    c.Resolves terms.toFinset := by
  have hlength := length_entriesOf hs he hplain
  refine ⟨?_, fun term hterm => ?_, fun id hpos hle => ?_, fun term hterm => ?_, fun id hid => ?_⟩
  · rw [Composite.count, he.count, hlength]
  · obtain ⟨i, hi, -, hfind, hget⟩ := exists_find_of_mem hs he hplain (by simpa using hterm)
    exact ⟨i + 1, hfind, by omega, by omega, hget⟩
  · obtain ⟨i, rfl⟩ := Nat.exists_eq_add_of_le' hpos
    have hi : i < (entriesOf vocabulary c.splitter terms).length := by omega
    obtain ⟨term, hterm, hentry⟩ := mem_entriesOf.1 (List.getElem_mem hi)
    obtain ⟨hfind, hget⟩ := find_of_getElem hs he (hplain term hterm) hi hentry
    exact ⟨term, by simpa using hterm, hget, hfind⟩
  · rcases findSplit_of_holds hs he (c.splitter.split term) with hfind | ⟨-, hfind⟩
    · by_cases hmem : entry vocabulary (c.splitter.split term) ∈
          entriesOf vocabulary c.splitter terms
      · -- the entry would be that of another term
        obtain ⟨other, hother, hentry⟩ := mem_entriesOf.1 hmem
        obtain ⟨i, hi, hat, -, hget⟩ := exists_find_of_mem hs he hplain hother
        rw [← hentry, ← hat, Dictionary.idIn_getElem he.ascending hi] at hfind
        have hget' := get_of_findSplit hfind (Nat.succ_ne_zero i)
        rw [Splitter.join_split, hget] at hget'
        obtain rfl := Except.ok.inj hget'
        exact absurd (by simpa using hother) hterm
      · rwa [Dictionary.idIn_of_notMem hmem] at hfind
    · exact hfind
  · have hentry := Dictionary.get_of_outside he (hlength ▸ hid)
    have hbytes : c.getBytes id = .error (.outOfRange .termId id (terms.toFinset.card + 1)) := by
      rw [getBytes, hentry, hlength]
      rfl
    rw [get, hbytes]
    rfl

end

end Composite

end TripleStore
