import TripleStore.Proofs.Container.Runs

/-!
# Reading a dictionary on a machine

A dictionary that opened is read without a fault: a span is compared with the length of the string
section before the positions of its string are added up (`Machine.string_eq_lift`), and a search
stays below the number of strings (`Machine.findBetween_eq_lift`). The checks of the offset table
use checked reads alone, so they are not written again.
-/

namespace TripleStore

namespace Machine

/-- Opens the content of a dictionary file. Sizes are compared by checked sums and products. -/
def openDictionary (data : ByteArray) : Machine Dictionary := do
  let layout ← parse data Header.dictionaryMagic
  let count := layout.header.count.toNat
  lift (require (count + 1 < limit64) (.corrupt .stringCountOverflow))
  let offsets ← lift (layout.offsetTable (count + 1))
  let strings ← lift (layout.find .strings)
  return ⟨data, layout, offsets, strings⟩

/-- Reads string number `i` as a slice of the file. -/
def string (d : Dictionary) (i : Nat) : Machine ByteArray := do
  let start ← lift (d.offsets.offset d.data i)
  fits (i + 1)
  let stop ← lift (d.offsets.offset d.data (i + 1))
  lift (require (start ≤ stop ∧ stop ≤ d.strings.length)
    (.corrupt (.stringSpan (i + 1) start stop d.strings.length)))
  fits (d.strings.start + start)
  fits (d.strings.start + stop)
  slice d.data (d.strings.start + start) (d.strings.start + stop)

/-- Reads the string with an id. -/
def get (d : Dictionary) (id : Nat) : Machine ByteArray :=
  if 1 ≤ id ∧ id ≤ d.count then do
    let i ← minus id 1
    string d i
  else do
    fits (d.count + 1)
    lift (.error (.outOfRange .termId id (d.count + 1)))

/-- Compares a stored string with a key. Two parts are compared with slices of the string. -/
def compareStored (stored : ByteArray) : Key → Machine Ordering
  | .whole b => return Octets.compare stored b
  | .parts a b => do
    let front ← slice stored 0 (min stored.size a.size)
    match Octets.compare front a with
    | .eq =>
      if stored.size < a.size then return .lt
      else
        let back ← slice stored a.size stored.size
        return Octets.compare back b
    | .lt => return .lt
    | .gt => return .gt

/-- Looks for a key among the strings from number `lo` up to `hi`. -/
def findBetween (d : Dictionary) (key : Key) (lo hi : Nat) : Machine Nat :=
  if lo < hi then do
    let mid := lo + (hi - lo) / 2
    fits mid
    let stored ← string d mid
    let order ← compareStored stored key
    fits (mid + 1)
    match order with
    | .lt => findBetween d key (mid + 1) hi
    | .gt => findBetween d key lo mid
    | .eq => return mid + 1
  else return 0
termination_by hi - lo

/-- Looks a key up. -/
def find (d : Dictionary) (key : Key) : Machine Nat := findBetween d key 0 d.count

/-- Reads all ids with their strings. -/
def items (d : Dictionary) : Machine (Results (Nat × ByteArray)) :=
  (List.range d.count).mapM fun i => attempt do
    fits (i + 1 + 1)
    let bytes ← get d (i + 1)
    return (i + 1, bytes)

/-- **Opening a dictionary never faults.** -/
theorem openDictionary_eq_lift {data : ByteArray} (hsize : data.size < limit64) :
    openDictionary data = lift (Dictionary.ofBytes data) := by
  rw [openDictionary, Dictionary.ofBytes, parse_eq_lift hsize]
  exact lift_bind_congr fun _ _ => lift_bind_congr fun _ _ => lift_bind_congr fun _ _ =>
    lift_bind_congr fun _ _ => rfl

/-- Comparing with a key never faults. -/
theorem compareStored_eq_lift (stored : ByteArray) (key : Key) :
    compareStored stored key = lift (.ok (key.compareStored stored)) := by
  cases key with
  | whole b => rfl
  | parts a b =>
    have hfront : stored.extract 0 (min stored.size a.size) = stored.extract 0 a.size := by
      refine octets_injective ?_
      rw [octets_extract, octets_extract, List.drop_zero, Nat.sub_zero, Nat.sub_zero, Nat.min_comm,
        ← length_octets stored, ← List.take_eq_take_min]
    rw [compareStored, Key.compareStored, slice_bind (Nat.zero_le _) (Nat.min_le_left _ _), hfront]
    cases hcompare : Octets.compare (stored.extract 0 a.size) a with
    | lt => rfl
    | gt => rfl
    | eq =>
      have hle : a.size ≤ stored.size := by
        have hsize := congrArg ByteArray.size (Octets.compare_eq_iff.1 hcompare)
        rw [ByteArray.size_extract] at hsize
        omega
      simp only
      rw [if_neg (by omega), slice_bind hle (Nat.le_refl _)]
      rfl

section

variable {d : Dictionary} (h : d.Opened) (hsize : d.data.size < limit64)

include h hsize

theorem count_lt : d.count + 1 < limit64 := by
  have hcount := h.table.count_lt d.offsets.width.bytes_pos hsize
  rw [h.table_count] at hcount
  exact Nat.lt_of_succ_lt hcount

/-- **Reading a string never faults.** -/
theorem string_eq_lift {i : Nat} (hi : i < d.count) : string d i = lift (d.string i) := by
  have hcount := count_lt h hsize
  have hstrings := h.strings.stop_le
  simp only [Section.stop] at hstrings
  rw [string, Dictionary.string, Dictionary.span]
  simp only [bind_assoc]
  refine lift_bind_congr fun start _ => ?_
  rw [fits_bind (by omega)]
  refine lift_bind_congr fun stop _ => lift_bind_congr fun _ hspan => ?_
  rw [require_eq_ok] at hspan
  rw [fits_bind (by omega), fits_bind (by omega), slice, if_pos (by omega)]
  rfl

theorem get_eq_lift (id : Nat) : get d id = lift (d.get id) := by
  rw [get, Dictionary.get]
  by_cases hid : 1 ≤ id ∧ id ≤ d.count
  · rw [if_pos hid, require, if_pos hid, minus_bind hid.1, string_eq_lift h hsize (by omega)]
    rfl
  · rw [if_neg hid, require, if_neg hid, fits_bind (count_lt h hsize)]
    rfl

theorem findBetween_eq_lift {key : Key} {lo hi : Nat} (hhi : hi ≤ d.count) :
    findBetween d key lo hi = lift (d.findBetween key lo hi) := by
  have hcount := count_lt h hsize
  fun_induction d.findBetween key lo hi with
  | case1 lo hi hlt mid e he =>
    rw [findBetween, if_pos hlt, fits_bind (by omega), string_eq_lift h hsize (by omega), he]
    rfl
  | case2 lo hi hlt mid stored hs hc ih =>
    rw [findBetween, if_pos hlt, fits_bind (by omega), string_eq_lift h hsize (by omega), hs,
      lift_ok_bind, compareStored_eq_lift, lift_ok_bind, hc, fits_bind (by omega)]
    exact ih hhi
  | case3 lo hi hlt mid stored hs hc ih =>
    rw [findBetween, if_pos hlt, fits_bind (by omega), string_eq_lift h hsize (by omega), hs,
      lift_ok_bind, compareStored_eq_lift, lift_ok_bind, hc, fits_bind (by omega)]
    exact ih (by omega)
  | case4 lo hi hlt mid stored hs hc =>
    rw [findBetween, if_pos hlt, fits_bind (by omega), string_eq_lift h hsize (by omega), hs,
      lift_ok_bind, compareStored_eq_lift, lift_ok_bind, hc, fits_bind (by omega)]
    rfl
  | case5 lo hi hlt =>
    rw [findBetween, if_neg hlt]
    rfl

theorem items_eq_lift : items d = lift (.ok d.items) := by
  have hcount := count_lt h hsize
  refine mapM_attempt fun i hi => ?_
  have hi := List.mem_range.1 hi
  rw [fits_bind (by omega), get_eq_lift h hsize]
  cases d.get (i + 1) <;> rfl

end

end Machine

end TripleStore
