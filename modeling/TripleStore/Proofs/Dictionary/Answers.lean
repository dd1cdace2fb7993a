import Mathlib.Data.List.Basic
import TripleStore.Proofs.Dictionary.File

/-!
# What a dictionary file answers

A writer numbers strictly ascending strings from 1 on, and the file that it leaves when it finishes
opens as a dictionary that passes all checks and answers for exactly these strings, by id, by key
and in sequence (`Dictionary.answers_of_ascending`).
-/

namespace TripleStore

namespace Dictionary

/-- A dictionary answers for strings: they have the ids from 1 on in their order, and nothing else
is found in it. -/
structure Answers (d : Dictionary) (strings : List ByteArray) : Prop where
  count : d.count = strings.length
  get : ∀ i (h : i < strings.length), d.get (i + 1) = .ok strings[i]
  outside : ∀ id, id = 0 ∨ strings.length < id →
    d.get id = .error (.outOfRange .termId id (strings.length + 1))
  /-- The sequence of all strings with their ids. -/
  items : d.items = (strings.zipIdx 1).map fun (s, id) => .ok (id, s)
  find : ∀ (key : Key) i (h : i < strings.length), strings[i] = key.bytes → d.find key = .ok (i + 1)
  absent : ∀ key : Key, key.bytes ∉ strings → d.find key = .ok 0
  /-- The dictionary passes the checks of its positions and of its checksums. -/
  validate : d.validate = .ok ()
  verify : d.verify = .ok ()

variable {d : Dictionary} {strings : List ByteArray}

/-! ## Reads -/

theorem items_of_holds (h : d.Holds strings) :
    d.items = (strings.zipIdx 1).map fun (s, id) => .ok (id, s) := by
  refine List.ext_getElem (by simp [items, h.count]) fun i hi _ => ?_
  have hi : i < strings.length := by simpa [items, h.count] using hi
  simp only [items, List.getElem_map, List.getElem_range, List.getElem_zipIdx, get_of_holds h hi]
  rw [Nat.add_comm]
  rfl

/-- The positions never decrease. -/
theorem checkOffsets_of_packs (h : d.Packs strings) {i n : Nat} (hn : i + n ≤ strings.length) :
    d.checkOffsets (bytesBefore strings i) (i + 1) n = .ok (bytesBefore strings (i + n)) := by
  induction n generalizing i with
  | zero => rfl
  | succ n ih =>
    have hsucc := bytesBefore_succ (show i < strings.length by omega)
    have hrest := ih (i := i + 1) (by omega)
    rw [show i + 1 + n = i + (n + 1) by omega] at hrest
    rw [checkOffsets]
    exact bind_eq_ok.2 ⟨_, h.offset (i + 1) (by omega),
      bind_eq_ok.2 ⟨(), require_eq_ok.2 (by omega), hrest⟩⟩

/-- **Strings that stand one after another have valid positions.** -/
theorem validate_of_packs (h : d.Packs strings) (hcount : d.count = strings.length) :
    d.validate = .ok () := by
  have hall := checkOffsets_of_packs h (i := 0) (n := strings.length) (by omega)
  simp only [Nat.zero_add] at hall
  rw [validate, hcount]
  refine bind_eq_ok.2 ⟨_, h.offset 0 (Nat.zero_le _), bind_eq_ok.2 ⟨(), require_eq_ok.2 rfl, ?_⟩⟩
  exact bind_eq_ok.2 ⟨_, hall, require_eq_ok.2 h.length.symm⟩

/-- **A dictionary that holds strings answers for them.** -/
theorem answers_of_holds (h : d.Holds strings) (hpacks : d.Packs strings)
    (hverify : d.verify = .ok ()) : d.Answers strings where
  count := h.count
  get _ hi := get_of_holds h hi
  outside _ hid := get_of_outside h hid
  items := items_of_holds h
  find key i hi hkey := by rw [find_of_holds h, ← hkey, idIn_getElem h.ascending hi]
  absent key hkey := by rw [find_of_holds h, idIn_of_notMem hkey]
  validate := validate_of_packs hpacks h.count
  verify := hverify

/-! ## Writing and reading back -/

/-- A writer gives the next string the next id. -/
theorem push_of_ascending (hlt : StrictlyAscending strings) (flags aux : UInt16) {i : Nat}
    (hi : i < strings.length) :
    ∃ w w', (DictionaryWriter.create flags aux).pushAll (strings.take i) = .ok w ∧
      w.push strings[i] = .ok w' ∧ w'.count = i + 1 := by
  obtain ⟨w, hw, hnoted, -, -⟩ := DictionaryWriter.pushAll_of_noted (strings.take i)
    (DictionaryWriter.noted_create flags aux) (hlt.sublist (List.take_sublist i strings))
  have hbefore : ∀ s ∈ strings.take i, compare s strings[i] = .lt := by
    intro s hs
    obtain ⟨j, hj, rfl⟩ := List.getElem_of_mem hs
    rw [List.length_take] at hj
    rw [List.getElem_take]
    exact List.pairwise_iff_getElem.1 hlt j i (by omega) hi (by omega)
  obtain ⟨w', hpush, hnoted', -, -⟩ := DictionaryWriter.push_of_noted hnoted hbefore
  refine ⟨w, w', hw, hpush, ?_⟩
  rw [DictionaryWriter.count_of_noted hnoted', List.nil_append, List.length_append,
    List.length_take, Nat.min_eq_left (Nat.le_of_lt hi), List.length_singleton]

/-- **Strictly ascending strings are numbered as they are pushed, and the file that the writer
leaves at its destination when it finishes answers for all of them**, whatever their number and
their bytes, as long as it is below 2⁶³ bytes. The writer finishes wherever a file may go. -/
theorem answers_of_ascending (hlt : StrictlyAscending strings) (flags aux : UInt16) :
    (∀ i (h : i < strings.length), ∃ w w',
      (DictionaryWriter.create flags aux).pushAll (strings.take i) = .ok w ∧
      w.push strings[i] = .ok w' ∧ w'.count = i + 1) ∧
    ∃ w file, (DictionaryWriter.create flags aux).pushAll strings = .ok w ∧
      w.Writes strings.length file ∧
      (file.size < 2 ^ 63 → ∃ d, ofBytes file = .ok d ∧ d.Answers strings) := by
  refine ⟨fun i hi => push_of_ascending hlt flags aux hi, ?_⟩
  obtain ⟨w, hw, hnoted, -, -⟩ := DictionaryWriter.pushAll_of_noted strings
    (DictionaryWriter.noted_create flags aux) hlt
  have hwrites := w.writes_file
  rw [DictionaryWriter.count_of_noted hnoted] at hwrites
  refine ⟨w, w.file, hw, hwrites, fun hsize => ?_⟩
  have hlimit : w.file.size < limit64 := by
    rw [limit64]
    omega
  obtain ⟨d, hopen, hholds, -, -, -, hpacks, hverify⟩ :=
    DictionaryWriter.holds_of_noted hnoted hlt hlimit
  exact ⟨d, hopen, answers_of_holds hholds hpacks hverify⟩

/-- The empty string, a byte that is no text, and a string that goes on after it, written to the
working directory of an empty tree. -/
theorem answers_of_ascending_bytes :
    StrictlyAscending [ByteArray.empty, ⟨#[255]⟩, ⟨#[255, 0]⟩] ∧
    ∃ (w : DictionaryWriter) (t' : FileTree) (file : ByteArray) (d : Dictionary),
      (DictionaryWriter.create 0 0).pushAll [ByteArray.empty, ⟨#[255]⟩, ⟨#[255, 0]⟩] = .ok w ∧
      (w.finish ⟨false, ["out"], .name⟩).apply FileTree.empty = (.ok 3, t') ∧
      t'.load ⟨false, ["out"], .name⟩ = .ok file ∧
      ofBytes file = .ok d ∧ d.Answers [ByteArray.empty, ⟨#[255]⟩, ⟨#[255, 0]⟩] := by
  have hlt : StrictlyAscending [ByteArray.empty, ⟨#[255]⟩, ⟨#[255, 0]⟩] := by
    simp only [StrictlyAscending, List.pairwise_cons]
    decide +kernel
  obtain ⟨w, file, hw, hwrites, hopens⟩ := (answers_of_ascending hlt 0 0).2
  obtain ⟨t', hfinish⟩ := hwrites.finishes FileTree.empty ⟨false, ["out"], .name⟩
    (FileTree.allowsFile_empty (by decide) rfl (by decide))
  obtain ⟨-, hload⟩ := hwrites.leaves _ _ _ _ hfinish
  -- the file is small
  obtain ⟨w', hw', hnoted, -, -⟩ := DictionaryWriter.pushAll_of_noted _
    (DictionaryWriter.noted_create 0 0) hlt
  obtain rfl := Except.ok.inj (hw.symm.trans hw')
  obtain rfl : w.file = file :=
    Except.ok.inj ((DictionaryWriter.load_of_finish hfinish).2.symm.trans hload)
  have hsize := DictionaryWriter.size_file_le hnoted
  have hroom : room ([] ++ [ByteArray.empty, ⟨#[255]⟩, ⟨#[255, 0]⟩]) = 27 := rfl
  obtain ⟨d, hopen, hanswers⟩ := hopens (by omega)
  exact ⟨hlt, w, t', _, d, hw, hfinish, hload, hopen, hanswers⟩

end Dictionary

end TripleStore
