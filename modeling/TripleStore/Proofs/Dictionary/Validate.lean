import TripleStore.Proofs.Corruption
import TripleStore.Proofs.Dictionary.Answers

/-!
# Dictionaries that pass their checks

The checks of a dictionary go through its table of positions once and read no string, whoever wrote
the file. They pass exactly if every id answers a string and these strings, one after another, are
the whole string section (`validates_iff_accounts`): no byte of it is left out, read twice or
out of order. Otherwise a damage is reported.
-/

namespace TripleStore

/-! ## Reports of damage -/

/-- If the read fails, it reports a damage. -/
def FailsAsCorrupt {α : Type} (x : Result α) : Prop :=
  ∀ e, x = .error e → ∃ damage, e = .corrupt damage

namespace FailsAsCorrupt

variable {α β : Type} {x : Result α} {f : α → Result β}

theorem ok (a : α) : FailsAsCorrupt (.ok a) := fun _ h => nomatch h

theorem bind (hx : FailsAsCorrupt x) (hf : ∀ a, FailsAsCorrupt (f a)) :
    FailsAsCorrupt (x >>= f) := by
  cases x with
  | ok a => exact hf a
  | error e => exact fun e' he' => hx e' (congrArg Except.error (Except.error.inj he'))

theorem require (c : Prop) [Decidable c] (damage : Damage) :
    FailsAsCorrupt (require c (.corrupt damage)) := by
  unfold TripleStore.require
  split
  · exact ok ()
  · exact fun _ h => ⟨damage, (Except.error.inj h).symm⟩

theorem orFail (o : Option α) (damage : Damage) : FailsAsCorrupt (orFail o (.corrupt damage)) := by
  cases o with
  | none => exact fun _ h => ⟨damage, (Except.error.inj h).symm⟩
  | some a => exact ok a

end FailsAsCorrupt

namespace Dictionary

variable {d : Dictionary} {strings : List ByteArray} {string : ByteArray} {i n start stop : Nat}

/-! ## Slices of the string section -/

/-- The bytes of the string section from one position in it up to another. -/
def slice (d : Dictionary) (start stop : Nat) : ByteArray :=
  d.data.extract (d.strings.start + start) (d.strings.start + stop)

/-- The bytes of the string section. -/
def contents (d : Dictionary) : ByteArray := d.data.extract d.strings.start d.strings.stop

theorem contents_eq (d : Dictionary) : d.contents = d.slice 0 d.strings.length := rfl

/-- Neighbouring slices join without a gap. -/
theorem slice_append {middle : Nat} (hstart : start ≤ middle) (hstop : middle ≤ stop) :
    d.slice start middle ++ d.slice middle stop = d.slice start stop := by
  rw [slice, slice, slice, ByteArray.extract_append_extract, Nat.min_eq_left (by omega),
    Nat.max_eq_right (by omega)]

theorem size_slice (h : d.Opened) (hstop : stop ≤ d.strings.length) :
    (d.slice start stop).size = stop - start := by
  have hend := h.strings.stop_le
  simp only [Section.stop] at hend
  rw [slice, ByteArray.size_extract]
  omega

/-- A string is the slice between two neighbouring positions of the table. -/
theorem string_eq_ok : d.string i = .ok string ↔ ∃ start stop,
    d.offsets.offset d.data i = .ok start ∧ d.offsets.offset d.data (i + 1) = .ok stop ∧
      start ≤ stop ∧ stop ≤ d.strings.length ∧ d.slice start stop = string := by
  simp only [Dictionary.string, span, bind_eq_ok, require_eq_ok]
  constructor
  · rintro ⟨⟨start, stop⟩, ⟨_, hstart, _, hstop, _, hle, hpair⟩, hstring⟩
    obtain ⟨rfl, rfl⟩ := Prod.mk.inj (Except.ok.inj hpair)
    exact ⟨_, _, hstart, hstop, hle.1, hle.2, Except.ok.inj hstring⟩
  · rintro ⟨start, stop, hstart, hstop, hle, hlength, rfl⟩
    exact ⟨(start, stop), ⟨start, hstart, stop, hstop, (), ⟨hle, hlength⟩, rfl⟩, rfl⟩

theorem get_eq_string (hi : i < d.count) : d.get (i + 1) = d.string i := by
  rw [get, require, if_pos ⟨by omega, hi⟩]
  rfl

/-! ## What the checks say -/

/-- Strings account for a dictionary: its ids answer them in order, and one after another they are
its whole string section. -/
structure AccountsFor (strings : List ByteArray) (d : Dictionary) : Prop where
  count : d.count = strings.length
  get : ∀ i (h : i < strings.length), d.get (i + 1) = .ok strings[i]
  contents : strings.flatMap octets = octets d.contents

/-- **Positions that pass the check bound strings**, which fill the string section from the first of
them up to the last one. -/
theorem exists_of_checkOffsets {last : Nat} (hstart : d.offsets.offset d.data i = .ok start)
    (h : d.checkOffsets start (i + 1) n = .ok last) (hlast : last ≤ d.strings.length) :
    start ≤ last ∧ ∃ strings : List ByteArray, strings.length = n ∧
      (∀ j (hj : j < strings.length), d.string (i + j) = .ok strings[j]) ∧
      strings.flatMap octets = octets (d.slice start last) := by
  induction n generalizing start i with
  | zero =>
    obtain rfl : start = last := Except.ok.inj h
    refine ⟨Nat.le_refl _, [], rfl, fun j hj => absurd hj (Nat.not_lt_zero j), ?_⟩
    rw [slice, octets_extract, Nat.sub_self]
    rfl
  | succ n ih =>
    obtain ⟨stop, hstop, hrest⟩ := bind_eq_ok.1 h
    obtain ⟨_, hle, hrest⟩ := bind_eq_ok.1 hrest
    rw [require_eq_ok] at hle
    obtain ⟨hstopLast, strings, hlength, hreads, hjoined⟩ := ih hstop hrest
    refine ⟨hle.trans hstopLast, d.slice start stop :: strings, by simp [hlength],
      fun j hj => ?_, ?_⟩
    · cases j with
      | zero =>
        exact string_eq_ok.2 ⟨start, stop, hstart, hstop, hle, hstopLast.trans hlast, rfl⟩
      | succ j =>
        rw [List.getElem_cons_succ, ← hreads j (by simpa using hj), Nat.add_assoc, Nat.add_comm 1]
    · rw [List.flatMap_cons, hjoined, ← octets_append, slice_append hle hstopLast]

/-- **A dictionary that passes its checks answers strings for its whole string section.** -/
theorem exists_accounts_of_validate (h : d.validate = .ok ()) :
    ∃ strings, AccountsFor strings d := by
  obtain ⟨first, hfirst, h₁⟩ := bind_eq_ok.1 h
  obtain ⟨_, hzero, h₂⟩ := bind_eq_ok.1 h₁
  obtain ⟨last, hcheck, hlast⟩ := bind_eq_ok.1 h₂
  rw [require_eq_ok] at hzero hlast
  subst hzero hlast
  obtain ⟨-, strings, hlength, hreads, hjoined⟩ :=
    exists_of_checkOffsets hfirst hcheck (Nat.le_refl _)
  refine ⟨strings, hlength.symm, fun i hi => ?_, hjoined⟩
  rw [get_eq_string (hlength ▸ hi), ← hreads i hi, Nat.zero_add]

/-- A string that is read reaches from its position up to the next one. -/
theorem offset_succ_of_string (hd : d.Opened) (h : d.string i = .ok string)
    (hstart : d.offsets.offset d.data i = .ok start) :
    start + string.size ≤ d.strings.length ∧
      d.offsets.offset d.data (i + 1) = .ok (start + string.size) := by
  obtain ⟨start', stop, hstart', hstop, hle, hlength, rfl⟩ := string_eq_ok.1 h
  obtain rfl : start' = start := Except.ok.inj (hstart'.symm.trans hstart)
  rw [size_slice hd hlength, Nat.add_sub_cancel' hle]
  exact ⟨hlength, hstop⟩

/-- The table of a dictionary whose strings are read has the positions of strings that stand one
after another, the first of them anywhere. -/
theorem exists_first_of_strings (hd : d.Opened) (hne : strings ≠ [])
    (h : ∀ i (hi : i < strings.length), d.string i = .ok strings[i]) :
    ∃ first, first + bytesBefore strings strings.length ≤ d.strings.length ∧
      ∀ i ≤ strings.length, d.offsets.offset d.data i = .ok (first + bytesBefore strings i) := by
  have hpos : 0 < strings.length := List.length_pos_iff.2 hne
  obtain ⟨first, _, hfirst, -⟩ := string_eq_ok.1 (h 0 hpos)
  have hoffset : ∀ i ≤ strings.length,
      d.offsets.offset d.data i = .ok (first + bytesBefore strings i) := by
    intro i hi
    induction i with
    | zero => exact hfirst
    | succ i ih =>
      rw [bytesBefore_succ hi, ← Nat.add_assoc]
      exact (offset_succ_of_string hd (h i hi) (ih (Nat.le_of_lt hi))).2
  obtain ⟨last, hlast⟩ := Nat.exists_eq_succ_of_ne_zero (Nat.ne_of_gt hpos)
  have hlt : last < strings.length := by omega
  refine ⟨first, ?_, hoffset⟩
  rw [hlast, bytesBefore_succ hlt, ← Nat.add_assoc]
  exact (offset_succ_of_string hd (h last hlt) (hoffset last (Nat.le_of_lt hlt))).1

/-- **A dictionary whose strings are its whole string section passes its checks**, unless it has
none: then its only position may be any. -/
theorem validate_of_accounts (hd : d.Opened) (hcount : 1 ≤ d.count)
    (h : AccountsFor strings d) : d.validate = .ok () := by
  have hne : strings ≠ [] := by
    rintro rfl
    rw [h.count] at hcount
    cases hcount
  obtain ⟨first, hroom, hoffset⟩ := exists_first_of_strings hd hne fun i hi => by
    rw [← get_eq_string (h.count ▸ hi), h.get i hi]
  have hlength : bytesBefore strings strings.length = d.strings.length := by
    rw [bytesBefore_length, h.contents, length_octets, contents_eq,
      size_slice hd (Nat.le_refl _), Nat.sub_zero]
  obtain rfl : first = 0 := by omega
  refine validate_of_packs ⟨fun i hi => ?_, hlength.symm⟩ h.count
  rw [hoffset i hi, Nat.zero_add]

/-! ## Failing checks -/

theorem failsAsCorrupt_offset (hd : d.Opened) (hi : i ≤ d.count) :
    FailsAsCorrupt (d.offsets.offset d.data i) := by
  rw [OffsetTable.offset, TripleStore.require, if_pos (by rw [hd.table_count]; omega)]
  exact (FailsAsCorrupt.require _ _).bind fun _ => .orFail _ _

theorem failsAsCorrupt_checkOffsets (hd : d.Opened) (before : Nat) (hn : i + n ≤ d.count + 1) :
    FailsAsCorrupt (d.checkOffsets before i n) := by
  induction n generalizing before i with
  | zero => exact .ok before
  | succ n ih =>
    exact (failsAsCorrupt_offset hd (by omega)).bind fun _ =>
      (FailsAsCorrupt.require _ _).bind fun _ => ih _ (by omega)

theorem failsAsCorrupt_validate (hd : d.Opened) : FailsAsCorrupt d.validate :=
  (failsAsCorrupt_offset hd (Nat.zero_le _)).bind fun _ =>
    (FailsAsCorrupt.require _ _).bind fun _ =>
      (failsAsCorrupt_checkOffsets hd _ (by omega)).bind fun _ => .require _ _

/-- **A dictionary of at least one string passes its checks exactly if all of its strings are
readable and together are its whole string section**, whoever wrote its file. In every other case
the checks report a damage. -/
theorem validates_iff_accounts {data : ByteArray} (hopen : ofBytes data = .ok d)
    (hcount : 1 ≤ d.count) :
    (d.validate = .ok () ↔ ∃ strings, AccountsFor strings d) ∧
      (d.validate = .ok () ∨ ∃ damage, d.validate = .error (.corrupt damage)) := by
  obtain ⟨-, hd⟩ := opened_of_ofBytes hopen
  refine ⟨⟨exists_accounts_of_validate, ?_⟩, ?_⟩
  · rintro ⟨strings, h⟩
    exact validate_of_accounts hd hcount h
  · cases hrun : d.validate with
    | ok u => exact .inl rfl
    | error e =>
      obtain ⟨damage, rfl⟩ := failsAsCorrupt_validate hd e hrun
      exact .inr ⟨damage, rfl⟩

/-- A dictionary of the strings "a" and "b", with one more byte in front of them that belongs to
neither. -/
def skippedByteFile : ByteArray :=
  Layout.file
    { header := { oneString.header with count := 2, tocStart := 41 }
      toc := [⟨.offsets, ⟨32, 6⟩, 0⟩, ⟨.strings, ⟨38, 3⟩, 0⟩] }
    [1, 0, 2, 0, 3, 0, 120, 97, 98] 0

/-- A file that passes the checks, and one whose strings are readable but leave out a byte. -/
theorem validates_iff_accounts_skipped :
    (∃ d, ofBytes oneStringFile = .ok d ∧ 1 ≤ d.count ∧ d.validate = .ok () ∧
      ∃ strings, AccountsFor strings d) ∧
    ∃ d, ofBytes skippedByteFile = .ok d ∧ 1 ≤ d.count ∧
      d.get 1 = .ok ⟨#[97]⟩ ∧ d.get 2 = .ok ⟨#[98]⟩ ∧
      d.validate = .error (.corrupt (.firstStringOffset 1)) ∧
      ¬ ∃ strings, AccountsFor strings d := by
  constructor
  · have hrun : (ofBytes oneStringFile).map (fun d => (d.count, d.validate)) = .ok (1, .ok ()) := by
      simp only [ofBytes, Layout.parse, Layout.disjoint_eq_decide]
      decide +kernel
    obtain ⟨d, hopen, hreads⟩ := map_eq_ok.1 hrun
    obtain ⟨hcount, hvalid⟩ := Prod.mk.inj hreads
    exact ⟨d, hopen, hcount.ge, hvalid, (validates_iff_accounts hopen hcount.ge).1.1 hvalid⟩
  · have hrun : (ofBytes skippedByteFile).map (fun d => (d.count, d.get 1, d.get 2, d.validate)) =
        .ok (2, .ok ⟨#[97]⟩, .ok ⟨#[98]⟩, .error (.corrupt (.firstStringOffset 1))) := by
      simp only [ofBytes, Layout.parse, Layout.disjoint_eq_decide]
      decide +kernel
    obtain ⟨d, hopen, hreads⟩ := map_eq_ok.1 hrun
    obtain ⟨hcount, hreads⟩ := Prod.mk.inj hreads
    obtain ⟨hfirst, hreads⟩ := Prod.mk.inj hreads
    obtain ⟨hsecond, hinvalid⟩ := Prod.mk.inj hreads
    have hpos : 1 ≤ d.count := by omega
    refine ⟨d, hopen, hpos, hfirst, hsecond, hinvalid, fun haccounts => ?_⟩
    rw [(validates_iff_accounts hopen hpos).1.2 haccounts] at hinvalid
    cases hinvalid

end Dictionary

end TripleStore
