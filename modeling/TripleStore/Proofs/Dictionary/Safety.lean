import TripleStore.Proofs.Opening

/-!
# Reading a dictionary safely

A dictionary that opened can be read without any other check, whoever wrote its file. An id is out
of range exactly if no string has it (`Dictionary.outOfRange_get`); every other read answers or
reports a damage that it found inside the file.
-/

namespace TripleStore

namespace Dictionary

variable {d : Dictionary} {key : Key} {i id n lo hi : Nat}

/-- A span that is answered lies in the string section. -/
theorem inBody_of_span (h : d.Opened) {start stop : Nat} (hspan : d.span i = .ok (start, stop)) :
    InBody d.data (d.strings.start + start) (d.strings.start + stop) := by
  simp only [span, bind_eq_ok, require_eq_ok] at hspan
  obtain ⟨a, -, b, -, _, hle, hpair⟩ := hspan
  obtain ⟨rfl, rfl⟩ := Prod.mk.inj (Except.ok.inj hpair)
  have hstart := h.strings.start_ge
  have hstop := h.strings.stop_le
  simp only [Section.stop] at hstop
  exact ⟨by omega, by omega, by omega⟩

/-! ## Outcomes -/

section

variable (h : d.Opened) (hsize : d.data.size < limit64)

include h hsize

theorem contained_offset (hi : i ≤ d.count) : Contained (d.offsets.offset d.data i) :=
  OffsetTable.contained_offset h.table hsize (by rw [h.table_count]; omega)

theorem contained_span (hi : i < d.count) : Contained (d.span i) :=
  (contained_offset h hsize (Nat.le_of_lt hi)).bind fun _ _ =>
    (contained_offset h hsize hi).bind fun _ _ => (Contained.require _ rfl).bind fun _ _ => .ok _

theorem contained_string (hi : i < d.count) : Contained (d.string i) :=
  (contained_span h hsize hi).bind fun _ _ => .ok _

theorem contained_get (hid : 1 ≤ id ∧ id ≤ d.count) : Contained (d.get id) := by
  rw [get, require, if_pos hid]
  exact contained_string h hsize (by omega)

/-- **An id is out of range exactly if no string has it.** -/
theorem isOutOfRange_get : IsOutOfRange (d.get id) ↔ id = 0 ∨ d.count < id := by
  by_cases hid : 1 ≤ id ∧ id ≤ d.count
  · exact iff_of_false (contained_get h hsize hid).not_isOutOfRange (by omega)
  · refine iff_of_true ⟨.termId, id, d.count + 1, ?_⟩ (by omega)
    rw [get, require, if_neg hid]
    rfl

theorem contained_findBetween (hhi : hi ≤ d.count) : Contained (d.findBetween key lo hi) := by
  fun_induction d.findBetween key lo hi with
  | case1 lo hi hlt mid e he =>
    have hstring := contained_string h hsize (i := mid) (by omega)
    rw [he] at hstring
    cases hstring with
    | corrupt hdamage => exact .corrupt hdamage
  | case2 lo hi hlt mid stored hs hc ih => exact ih hhi
  | case3 lo hi hlt mid stored hs hc ih => exact ih (by omega)
  | case4 lo hi hlt mid stored hs hc => exact .ok _
  | case5 lo hi hlt => exact .ok _

theorem contained_items : ∀ item ∈ d.items, Contained item := by
  intro item hitem
  obtain ⟨i, hi, rfl⟩ := List.mem_map.1 hitem
  exact (contained_get h hsize ⟨by omega, List.mem_range.1 hi⟩).map _

theorem contained_checkOffsets (before : Nat) (hn : i + n ≤ d.count + 1) :
    Contained (d.checkOffsets before i n) := by
  induction n generalizing before i with
  | zero => exact .ok before
  | succ n ih =>
    exact (contained_offset h hsize (by omega)).bind fun _ _ =>
      (Contained.require _ rfl).bind fun _ _ => ih _ (by omega)

theorem contained_validate : Contained d.validate :=
  (contained_offset h hsize (Nat.zero_le _)).bind fun _ _ =>
    (Contained.require _ rfl).bind fun _ _ =>
      (contained_checkOffsets h hsize _ (by omega)).bind fun _ _ => .require _ rfl

end

end Dictionary

end TripleStore
