import TripleStore.Proofs.Sorter.Record

/-!
# Runs delimit themselves

A run is its records one after another, with nothing between or behind them. `Head.readAll` reads
one record after another until nothing is left, and answers exactly the records that were written
(`Head.delimits_itself`), since each of them says where it ends. The length in front of a byte
string takes as many groups of seven bits as it needs, which are at most ten
(`Varint.length_encode_le_iff`), and those are what is read.
-/

namespace TripleStore

/-! ## Lengths of numbers -/

/-- A number takes as many groups as its digits in base 128. -/
theorem Varint.length_encode_le_iff {n groups : Nat} :
    (encode n).length ≤ groups + 1 ↔ n < 128 ^ (groups + 1) := by
  induction groups generalizing n with
  | zero =>
    unfold encode
    split
    · simpa using ‹n < 128›
    · have hpos : 0 < (encode (n / 128)).length := by
        unfold encode
        split <;> simp
      simp only [List.length_cons]
      omega
  | succ groups ih =>
    unfold encode
    split
    · have hle : 128 ^ 1 ≤ 128 ^ (groups + 1 + 1) := Nat.pow_le_pow_right (by decide) (by omega)
      simp only [List.length_singleton]
      omega
    · rw [List.length_cons, Nat.add_le_add_iff_right, ih, Nat.pow_succ 128 (groups + 1),
        Nat.div_lt_iff_lt_mul (by decide)]

/-! ## Runs -/

namespace Head

variable {α : Type} [Record α]

/-- The records of run number `i`, read one after another up to its end, or the first error. -/
def readAll (i : Nat) (unread : List UInt8) : Result (List α) :=
  match _h : read? i unread with
  | .error e => .error e
  | .ok none => .ok []
  | .ok (some head) => (readAll i head.unread).map (head.record :: ·)
termination_by unread.length
decreasing_by exact length_lt_of_read? _h

theorem readAll_of_none {i : Nat} {unread : List UInt8}
    (h : read? i unread = .ok (none : Option (Head α))) :
    (readAll i unread : Result (List α)) = .ok [] := by
  unfold readAll
  split <;> simp_all

theorem readAll_of_some {i : Nat} {unread : List UInt8} {head : Head α}
    (h : read? i unread = .ok (some head)) :
    readAll i unread = (readAll i head.unread).map (head.record :: ·) := by
  conv_lhs => unfold readAll
  split <;> simp_all

/-- **What was written is read back**, record by record, and then the run has ended. -/
theorem readAll_flatMap_encode {l : List α} (h : ∀ a ∈ l, Record.Fits a) (i : Nat) :
    readAll i (l.flatMap Record.encode) = .ok l := by
  have hread := read?_flatMap_encode h i
  induction l with
  | nil => exact readAll_of_none hread
  | cons a l ih =>
    have hl : ∀ b ∈ l, Record.Fits b := fun b hb => h b (List.mem_cons_of_mem a hb)
    rw [readAll_of_some hread, ih hl (read?_flatMap_encode hl i)]
    rfl

/-- **A run delimits its records**: the byte strings whose lengths have 64 bits, the empty one
included, and all rows. A number of 64 bits takes at most ten bytes, and is read back from in front
of any others. -/
theorem delimits_itself (i : Nat) :
    (∀ strings : List ByteArray, (∀ b ∈ strings, b.size < limit64) →
      readAll i (strings.flatMap Record.encode) = .ok strings) ∧
    (∀ rows : List Row, readAll i (rows.flatMap Record.encode) = .ok rows) ∧
    ∀ n : UInt64, (∀ rest, Varint.decode (Varint.encode n.toNat ++ rest) = .ok (n.toNat, rest)) ∧
      (Varint.encode n.toNat).length ≤ 10 := by
  refine ⟨fun _ hsize => readAll_flatMap_encode (fun b hb => fits_bytes (hsize b hb)) i,
    fun _ => readAll_flatMap_encode (fun r _ => fits_row r) i, fun n => ⟨fun rest => ?_, ?_⟩⟩
  · exact Varint.decode_encode rest n.toNat_lt
  · exact Varint.length_encode_le_iff.2 (Nat.lt_trans n.toNat_lt (by decide))

/-- Three byte strings, the first and the last of them empty, and the largest number. -/
theorem delimits_itself_empty_strings :
    (∀ b ∈ ([⟨#[]⟩, ⟨#[128, 0]⟩, ⟨#[]⟩] : List ByteArray), b.size < limit64) ∧
    ([⟨#[]⟩, ⟨#[128, 0]⟩, ⟨#[]⟩] : List ByteArray).flatMap Record.encode = [0, 2, 128, 0, 0] ∧
    readAll 0 [0, 2, 128, 0, 0] = .ok ([⟨#[]⟩, ⟨#[128, 0]⟩, ⟨#[]⟩] : List ByteArray) ∧
    Varint.decode (Varint.encode (18446744073709551615 : UInt64).toNat ++ [128]) =
      .ok ((18446744073709551615 : UInt64).toNat, [128]) := by
  have hsize : ∀ b ∈ ([⟨#[]⟩, ⟨#[128, 0]⟩, ⟨#[]⟩] : List ByteArray), b.size < limit64 := by decide
  have hencode : ([⟨#[]⟩, ⟨#[128, 0]⟩, ⟨#[]⟩] : List ByteArray).flatMap Record.encode =
      [0, 2, 128, 0, 0] := by cbv
  obtain ⟨hstrings, -, hnumbers⟩ := delimits_itself 0
  refine ⟨hsize, hencode, ?_, (hnumbers 18446744073709551615).1 [128]⟩
  rw [← hencode]
  exact hstrings _ hsize

end Head

end TripleStore
