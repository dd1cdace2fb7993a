import TripleStore.Proofs.Octets
import TripleStore.Term.Code

/-!
# Inline codes are unambiguous

A symbol stands for one number below 64 (`symbolValue?_eq_some_iff`), four symbols for one id below
the limit (`decode?_eq_some_iff`), and a coded entry for one id, edge and remaining part
(`decodeCoded?_eq_some_iff`): what is read is what was written, and nothing else is read
(`codes_unambiguous`). Only the first five bytes of an entry say whether it is a coded one
(`looksCoded_extract`).
-/

namespace TripleStore.Code

variable {data entry rest code : ByteArray} {i id n : Nat} {edge : Edge} {b : UInt8}

/-! ## Symbols and marks -/

/-- A byte is the symbol of the number that is read from it. -/
theorem symbolValue?_eq_some_iff : symbolValue? b = some n ↔ n < 64 ∧ symbol n = b := by
  have htable : ∀ i < 256, ∀ n ∈ symbolValue? (UInt8.ofNat i),
      n < 64 ∧ symbol n = UInt8.ofNat i := by
    decide +kernel
  constructor
  · intro h
    have hsymbol := htable b.toNat b.toNat_lt
    rw [UInt8.ofNat_toNat] at hsymbol
    exact hsymbol n h
  · rintro ⟨hn, rfl⟩
    exact symbolValue?_symbol n hn

theorem edge?_eq_some_iff : edge? b = some edge ↔ b = mark edge := by
  unfold edge?
  cases edge <;> grind [mark]

/-- The symbols of an id are those of its four digits to the base 64. -/
theorem symbols_digits {a b c d : Nat} (ha : a < 64) (hb : b < 64) (hc : c < 64) (hd : d < 64) :
    symbols (((a * 64 + b) * 64 + c) * 64 + d) = [symbol a, symbol b, symbol c, symbol d] := by
  have h₃ : (((a * 64 + b) * 64 + c) * 64 + d) / 64 / 64 / 64 % 64 = a := by omega
  have h₂ : (((a * 64 + b) * 64 + c) * 64 + d) / 64 / 64 % 64 = b := by omega
  have h₁ : (((a * 64 + b) * 64 + c) * 64 + d) / 64 % 64 = c := by omega
  have h₀ : (((a * 64 + b) * 64 + c) * 64 + d) % 64 = d := by omega
  rw [symbols, h₃, h₂, h₁, h₀]

/-! ## Codes -/

/-- The code of an id below the limit is its symbols. -/
theorem encode_eq_ok : encode id = .ok code ↔ id < limit ∧ code = (symbols id).toByteArray := by
  simp only [encode, bind_eq_ok, require_eq_ok]
  constructor
  · rintro ⟨_, hid, hcode⟩
    exact ⟨hid, (Except.ok.inj hcode).symm⟩
  · rintro ⟨hid, rfl⟩
    exact ⟨(), hid, rfl⟩

/-- An id at or above the limit is refused as out of range, and no other one is. -/
theorem encode_eq_error {e : StoreError} :
    encode id = .error e ↔ limit ≤ id ∧ e = .outOfRange .sharedId id limit := by
  by_cases hid : id < limit
  · rw [encode_eq_ok.2 ⟨hid, rfl⟩]
    exact iff_of_false (by simp) fun h => Nat.not_le_of_lt hid h.1
  · rw [encode, require, if_neg hid]
    simp [bind, Except.bind, Nat.le_of_not_lt hid, eq_comm]

/-- With a mark, the code of an id below the limit is its symbols and the mark. -/
theorem encodeAt_eq_ok {edge : Option Edge} :
    encodeAt id edge = .ok code ↔
      ∃ e, edge = some e ∧ id < limit ∧ code = (symbols id ++ [mark e]).toByteArray := by
  simp only [encodeAt, bind_eq_ok, orFail_eq_ok, require_eq_ok]
  constructor
  · rintro ⟨e, rfl, _, hid, hcode⟩
    exact ⟨e, rfl, hid, (Except.ok.inj hcode).symm⟩
  · rintro ⟨e, rfl, hid, rfl⟩
    exact ⟨e, rfl, (), hid, rfl⟩

/-- The bytes that a code at a position is read from. -/
theorem octets_extract_length (h : i + length ≤ data.size) :
    octets (data.extract i (i + length)) =
      [byteAt data i, byteAt data (i + 1), byteAt data (i + 2), byteAt data (i + 3)] := by
  rw [length] at h
  rw [octets_extract, Nat.add_sub_cancel_left, drop_octets_eq_cons (by omega),
    drop_octets_eq_cons (by omega), drop_octets_eq_cons (by omega), drop_octets_eq_cons (by omega)]
  rfl

/-- **An id is read where its symbols stand**, and nowhere else. -/
theorem decode?_eq_some_iff :
    decode? data i = some id ↔
      id < limit ∧ octets (data.extract i (i + length)) = symbols id := by
  rw [decode?]
  constructor
  · intro h
    obtain ⟨hsize, h⟩ := Option.ite_none_right_eq_some.1 h
    simp only [Option.bind_eq_bind, Option.bind_eq_some_iff, Option.pure_def, Option.some.injEq,
      symbolValue?_eq_some_iff] at h
    obtain ⟨a, ⟨ha, hfirst⟩, b, ⟨hb, hsecond⟩, c, ⟨hc, hthird⟩, d, ⟨hd, hfourth⟩, rfl⟩ := h
    refine ⟨by rw [limit]; omega, ?_⟩
    rw [octets_extract_length hsize, symbols_digits ha hb hc hd, hfirst, hsecond, hthird, hfourth]
  · rintro ⟨hid, h⟩
    have hsize : i + length ≤ data.size := by
      have hlength := congrArg List.length h
      rw [length_octets, ByteArray.size_extract] at hlength
      simp only [symbols, List.length_cons, List.length_nil] at hlength
      rw [length] at hlength ⊢
      omega
    have hvalue (n : Nat) : symbolValue? (symbol (n % 64)) = some (n % 64) :=
      symbolValue?_symbol _ (Nat.mod_lt _ (by omega))
    rw [octets_extract_length hsize, symbols] at h
    simp only [List.cons.injEq, and_true] at h
    obtain ⟨hfirst, hsecond, hthird, hfourth⟩ := h
    rw [limit] at hid
    simp only [if_pos hsize, hfirst, hsecond, hthird, hfourth, hvalue, Option.bind_eq_bind,
      Option.bind_some, Option.pure_def, Option.some.injEq]
    omega

/-! ## Coded entries -/

/-- **An entry is read as a coded one where a code stands in front of it**, and no other one
is. -/
theorem decodeCoded?_eq_some_iff :
    decodeCoded? entry = some (id, edge, rest) ↔
      id < limit ∧ octets entry = symbols id ++ mark edge :: octets rest := by
  rw [decodeCoded?]
  constructor
  · intro h
    obtain ⟨hsize, h⟩ := Option.ite_none_right_eq_some.1 h
    simp only [Option.bind_eq_bind, Option.bind_eq_some_iff, Option.pure_def, Option.some.injEq,
      Prod.mk.injEq] at h
    obtain ⟨_, hedge, _, hid, rfl, rfl, rfl⟩ := h
    obtain ⟨hlimit, hsymbols⟩ := decode?_eq_some_iff.1 hid
    rw [octets_extract, Nat.zero_add, List.drop_zero, Nat.sub_zero] at hsymbols
    rw [octets_extract_size, ← edge?_eq_some_iff.1 hedge, ← drop_octets_eq_cons hsize, ← hsymbols,
      List.take_append_drop]
    exact ⟨hlimit, rfl⟩
  · rintro ⟨hid, h⟩
    have hlength : (symbols id).length = length := rfl
    have hsize : length < entry.size := by
      rw [size_eq_length_octets, h, List.length_append, hlength, List.length_cons]
      omega
    have hcode : octets (entry.extract 0 (0 + length)) = symbols id := by
      rw [octets_extract, h, Nat.zero_add, List.drop_zero, Nat.sub_zero, List.take_left' hlength]
    have hdrop := drop_octets_eq_cons hsize
    rw [h, List.drop_left' hlength, ← h] at hdrop
    obtain ⟨hmark, hdrop⟩ := List.cons.inj hdrop
    have hrest : entry.extract (length + 1) entry.size = rest := by
      rw [← octets_inj, octets_extract_size, hdrop]
    rw [if_pos hsize, ← hmark, edge?_mark, decode?_eq_some_iff.2 ⟨hid, hcode⟩, hrest]
    rfl

/-- A coded entry is read back as its parts. -/
theorem decodeCoded?_append (h : encodeAt id (some edge) = .ok code) (rest : ByteArray) :
    decodeCoded? (code ++ rest) = some (id, edge, rest) := by
  obtain ⟨e, he, hid, rfl⟩ := encodeAt_eq_ok.1 h
  obtain rfl : edge = e := Option.some.inj he
  exact decodeCoded?_eq_some_iff.2 ⟨hid, by simp⟩

/-- Whether an entry looks coded is said by its first five bytes. -/
theorem looksCoded_extract (b : ByteArray) :
    looksCoded (b.extract 0 (length + 1)) = looksCoded b := by
  have hsize : length < (b.extract 0 (length + 1)).size ↔ length < b.size := by
    rw [ByteArray.size_extract, length]; omega
  have hbyte (i : Nat) (hi : i < 5) : byteAt (b.extract 0 (length + 1)) i = byteAt b i := by
    simp only [byteAt_eq_getD, octets_extract, List.drop_zero, length, List.getD_eq_getElem?_getD]
    rw [List.getElem?_take_of_lt (by omega)]
  unfold looksCoded decodeCoded?
  by_cases h : length < b.size
  · have hid : decode? (b.extract 0 (length + 1)) 0 = decode? b 0 := by
      have h' := hsize.2 h
      rw [decode?, decode?, if_pos (by omega), if_pos (by omega), hbyte 0 (by omega),
        hbyte (0 + 1) (by omega), hbyte (0 + 2) (by omega), hbyte (0 + 3) (by omega)]
    rw [if_pos h, if_pos (hsize.2 h), hbyte length (by simp [length]), hid]
    generalize edge? (byteAt b length) = edge
    generalize decode? b 0 = id
    cases edge <;> cases id <;> simp
  · rw [if_neg h, if_neg (fun h' => h (hsize.1 h'))]

theorem decodeCoded?_eq_none {b : ByteArray} (h : looksCoded b = false) :
    decodeCoded? b = none := by
  simpa [looksCoded] using h

/-! ## Spelling -/

/-- An entry is spelled as the code of an id and an edge, followed by the remaining part. -/
def Spells (entry : ByteArray) (reading : Nat × Edge × ByteArray) : Prop :=
  ∃ code, encodeAt reading.1 (some reading.2.1) = .ok code ∧ entry = code ++ reading.2.2

/-- What an entry is read as is how it is spelled. -/
theorem decodeCoded?_eq_some_iff_spells {reading : Nat × Edge × ByteArray} :
    decodeCoded? entry = some reading ↔ Spells entry reading := by
  obtain ⟨id, edge, rest⟩ := reading
  constructor
  · intro h
    obtain ⟨hid, hbytes⟩ := decodeCoded?_eq_some_iff.1 h
    exact ⟨_, encodeAt_eq_ok.2 ⟨edge, rfl, hid, rfl⟩, octets_injective (by simp [hbytes])⟩
  · rintro ⟨code, hcode, rfl⟩
    exact decodeCoded?_append hcode rest

/-- A coded entry has one reading. -/
theorem looksCoded_iff_existsUnique :
    looksCoded entry = true ↔ ∃! reading, Spells entry reading := by
  simp only [looksCoded, Option.isSome_iff_exists, ← decodeCoded?_eq_some_iff_spells]
  constructor
  · rintro ⟨reading, h⟩
    exact ⟨reading, h, fun other hother => Option.some.inj (hother.symm.trans h)⟩
  · rintro ⟨reading, h, -⟩
    exact ⟨reading, h⟩

/-- **Inline codes are unambiguous.** The code of an id below the limit is read back together with
what follows it, whatever is read as a coded entry was spelled so, and so a coded entry has one
reading. An id is read wherever its four symbols stand and nowhere else, and just the ids at or
above the limit have none. -/
theorem codes_unambiguous :
    (∀ id edge rest, id < limit → ∃ code, encodeAt id (some edge) = .ok code ∧
      decodeCoded? (code ++ rest) = some (id, edge, rest)) ∧
    (∀ entry id edge rest, decodeCoded? entry = some (id, edge, rest) →
      id < limit ∧ ∃ code, encodeAt id (some edge) = .ok code ∧ entry = code ++ rest) ∧
    (∀ entry, looksCoded entry = true ↔ ∃! reading, Spells entry reading) ∧
    (∀ data i id, decode? data i = some id ↔
      ∃ code, encode id = .ok code ∧ code.size = length ∧ data.extract i (i + length) = code) ∧
    ∀ id e, encode id = .error e ↔ limit ≤ id ∧ e = .outOfRange .sharedId id limit := by
  refine ⟨?_, ?_, fun _ => looksCoded_iff_existsUnique, ?_, fun _ _ => encode_eq_error⟩
  · intro id edge rest hid
    have hcode := encodeAt_eq_ok.2 ⟨edge, rfl, hid, rfl⟩
    exact ⟨_, hcode, decodeCoded?_append hcode rest⟩
  · intro entry id edge rest h
    exact ⟨(decodeCoded?_eq_some_iff.1 h).1, decodeCoded?_eq_some_iff_spells.1 h⟩
  · intro data i id
    simp only [decode?_eq_some_iff, encode_eq_ok]
    constructor
    · rintro ⟨hid, hsymbols⟩
      exact ⟨_, ⟨hid, rfl⟩, by simp [symbols, length],
        octets_injective (by rw [hsymbols, octets_toByteArray])⟩
    · rintro ⟨_, ⟨hid, rfl⟩, -, hsymbols⟩
      exact ⟨hid, by rw [hsymbols, octets_toByteArray]⟩

/-- The last id, written in front of a term that starts with a mark itself. -/
theorem codes_unambiguous_at_last_id : limit - 1 < limit ∧
    ∃ code, encodeAt (limit - 1) (some .trailing) = .ok code ∧ octets code = [47, 47, 47, 47, 33] ∧
      decodeCoded? (code ++ [33, 46].toByteArray) =
        some (limit - 1, .trailing, [33, 46].toByteArray) := by
  have hid : limit - 1 < limit := by decide
  obtain ⟨code, hcode, hread⟩ :=
    codes_unambiguous.1 (limit - 1) .trailing [33, 46].toByteArray hid
  obtain ⟨_, hedge, -, rfl⟩ := encodeAt_eq_ok.1 hcode
  obtain rfl := Option.some.inj hedge
  exact ⟨hid, _, hcode, by rw [octets_toByteArray]; decide, hread⟩

end TripleStore.Code
