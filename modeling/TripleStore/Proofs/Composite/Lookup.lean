import TripleStore.Composite
import TripleStore.Proofs.Container.Disjoint
import TripleStore.Proofs.Dictionary.Search
import TripleStore.Proofs.Term.Code
import TripleStore.Proofs.Term.Split

/-!
# Looking terms up in a composite dictionary

Whatever the two files of a composite dictionary hold, an id that a look-up answers is the id of the
term that was looked up (`get_of_find_of_ne_zero`): a damaged file can hide a term, but it cannot
pass one off as another. `getBytes_of_whole` and `getBytes_of_coded` read an entry of either shape.
-/

namespace TripleStore

theorem fromUTF8?_toUTF8 (s : String) : String.fromUTF8? s.toUTF8 = some s := by
  unfold String.fromUTF8?
  split
  · rfl
  · rename_i h
    exact absurd s.isValidUTF8 h

namespace Composite

variable {c : Composite} {id sharedId : Nat} {entry code : ByteArray} {edge : Edge}
  {shared rest term : String}

/-- The parts of a split, one after the other, are the term. -/
theorem bytes_wholeKey (s : Split) : (wholeKey s).bytes = s.join.toUTF8 := by
  rcases s with term | ⟨edge, shared, rest⟩
  · rfl
  · cases edge <;> rfl

/-! ## Reading entries -/

theorem get_of_getBytes (h : c.getBytes id = .ok term.toUTF8) : c.get id = .ok term := by
  simp only [get, h, fromUTF8?_toUTF8, orFail, bind, Except.bind]

/-- An entry that does not look coded is the term. -/
theorem getBytes_of_whole (h : c.entries.get id = .ok entry)
    (hw : Code.looksCoded entry = false) : c.getBytes id = .ok entry := by
  simp only [getBytes, h, Code.decodeCoded?_eq_none hw, bind, Except.bind]
  rfl

/-- A coded entry stands for its two parts. -/
theorem getBytes_of_coded (hcode : Code.encodeAt sharedId (some edge) = .ok code)
    (h : c.entries.get id = .ok (code ++ rest.toUTF8))
    (hs : c.shared.get sharedId = .ok shared.toUTF8) :
    c.getBytes id = .ok (Split.parted edge shared rest).join.toUTF8 := by
  simp only [getBytes, h, Code.decodeCoded?_append hcode, getShared, hs, bind, Except.bind]
  cases edge <;> rfl

/-! ## Soundness -/

/-- A whole term is looked up only where no coded entry can stand. -/
theorem getBytes_of_findWhole {key : Key} (h : c.findWhole key = .ok id) (hid : id ≠ 0) :
    c.getBytes id = .ok key.bytes := by
  unfold findWhole at h
  rw [Code.looksCoded_extract] at h
  split at h
  · exact absurd (Except.ok.inj h).symm hid
  · rename_i hw
    exact getBytes_of_whole (Dictionary.get_of_find h hid) (by simpa using hw)

/-- The id of a split term is the id of the joined term. -/
theorem get_of_findSplit {s : Split} (h : c.findSplit s = .ok id) (hid : id ≠ 0) :
    c.get id = .ok s.join := by
  refine get_of_getBytes ?_
  rcases s with term | ⟨edge, shared, rest⟩
  · exact getBytes_of_findWhole h hid
  · obtain ⟨sharedId, hshared, h⟩ := bind_eq_ok.1 h
    split at h
    · rw [← bytes_wholeKey]
      exact getBytes_of_findWhole h hid
    · rename_i hcoded
      obtain ⟨code, hcode, h⟩ := bind_eq_ok.1 h
      exact getBytes_of_coded hcode (Dictionary.get_of_find h hid)
        (Dictionary.get_of_find hshared fun h0 => hcoded (.inl h0))

/-- **A look-up never answers the id of another term**, whatever the two files hold and however the
caller split the term. -/
theorem get_of_find_of_ne_zero (c : Composite) :
    (∀ (s : Split) (id : Nat), c.findSplit s = .ok id → id ≠ 0 → c.get id = .ok s.join) ∧
      ∀ (term : String) (id : Nat), c.find term = .ok id → id ≠ 0 → c.get id = .ok term := by
  refine ⟨fun s id h hid => get_of_findSplit h hid, fun term id h hid => ?_⟩
  rw [get_of_findSplit h hid, Splitter.join_split]

/-- Opens the contents of the two files of a composite dictionary, shared parts first. -/
def ofFiles (entriesFile sharedFile : ByteArray) : Result Composite := do
  let shared ← Dictionary.ofBytes sharedFile
  let entries ← Dictionary.ofBytes entriesFile
  ofDictionaries entries shared

/-- A dictionary file that no builder writes: the strings need not ascend, and all of its checksums
are zero. -/
def uncheckedFile (flags : UInt16) (positions : List Nat) (strings : String) : ByteArray :=
  let offsets : Section := ⟨Header.size, 2 * positions.length⟩
  let text : Section := ⟨offsets.stop, strings.utf8ByteSize⟩
  let header : Header :=
    { magic := Header.dictionaryMagic
      version := Header.currentVersion
      flags := flags
      count := UInt64.ofNat (positions.length - 1)
      tocStart := UInt64.ofNat text.stop
      tocLength := 2
      offsetWidth := 2
      valueWidth := 0
      aux := 0 }
  (header.encode ++ positions.flatMap (digits 2) ++ octets strings.toUTF8 ++
    TocEntry.encode ⟨.offsets, offsets, 0⟩ ++ TocEntry.encode ⟨.strings, text, 0⟩ ++
    Footer.encode 0).toByteArray

/-- A term is resolved soundly from the entries `_b`, `AAAB.x>` and `A`, which are out of order. -/
theorem get_of_find_in_unordered_entries :
    ∃ c, ofFiles (uncheckedFile (flagsOf .both) [0, 2, 9, 10] "_bAAAB.x>A")
        (uncheckedFile 0 [0, 5] "<b:c/") = .ok c ∧
      (c.findSplit (.parted .leading "<b:c/" "x>") = .ok 2 ∧ c.find "<b:c/x>" = .ok 2) ∧
      c.get 2 = .ok (Split.parted .leading "<b:c/" "x>").join ∧ c.get 2 = .ok "<b:c/x>" := by
  have hrun : (do
      let c ← ofFiles (uncheckedFile (flagsOf .both) [0, 2, 9, 10] "_bAAAB.x>A")
        (uncheckedFile 0 [0, 5] "<b:c/")
      let id ← c.findSplit (.parted .leading "<b:c/" "x>")
      let id' ← c.find "<b:c/x>"
      return (id, id')) = .ok (2, 2) := by
    simp only [ofFiles, Dictionary.ofBytes, Layout.parse, Layout.disjoint_eq_decide]
    decide +kernel
  obtain ⟨c, hopen, hrun⟩ := bind_eq_ok.1 hrun
  obtain ⟨id, hsplit, hrun⟩ := bind_eq_ok.1 hrun
  obtain ⟨id', hfind, hids⟩ := bind_eq_ok.1 hrun
  obtain ⟨rfl, rfl⟩ := Prod.mk.inj (Except.ok.inj hids)
  exact ⟨c, hopen, ⟨hsplit, hfind⟩, (get_of_find_of_ne_zero c).1 _ _ hsplit (by decide),
    (get_of_find_of_ne_zero c).2 _ _ hfind (by decide)⟩

end Composite

end TripleStore
