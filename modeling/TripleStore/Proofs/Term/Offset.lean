import TripleStore.Proofs.Octets
import TripleStore.Proofs.Term.Cut

/-!
# Cutting the bytes of a term

The characters that decide a cut are ASCII, and no byte of any other character is an ASCII byte. So
a cut is found by searching the UTF-8 bytes of the term for single bytes, `Splitter.offset?`: it is
the cut of the text (`Splitter.offset?_toUTF8`) and lies between two characters
(`Split.isValid_of_offset?`).
-/

namespace TripleStore

/-! ## Bytes of characters -/

/-- The UTF-8 bytes of a text. -/
def utf8 (text : List Char) : List UInt8 := text.flatMap String.utf8EncodeChar

@[simp] theorem utf8_nil : utf8 [] = [] := rfl

@[simp] theorem utf8_append (a b : List Char) : utf8 (a ++ b) = utf8 a ++ utf8 b := by
  simp [utf8]

theorem utf8_cons (c : Char) (text : List Char) :
    utf8 (c :: text) = String.utf8EncodeChar c ++ utf8 text := rfl

theorem toByteArray_utf8 (text : List Char) : (utf8 text).toByteArray = text.utf8Encode := rfl

theorem octets_toUTF8 (s : String) : octets s.toUTF8 = utf8 s.toList := by
  rw [String.toUTF8_eq_toByteArray, ← String.utf8Encode_toList, ← toByteArray_utf8,
    octets_toByteArray]

theorem length_utf8_toList (s : String) : (utf8 s.toList).length = s.utf8ByteSize := by
  rw [← octets_toUTF8, length_octets]
  rfl

@[simp] theorem utf8_eq_nil_iff {text : List Char} : utf8 text = [] ↔ text = [] := by
  cases text <;> simp [utf8_cons, String.utf8EncodeChar_ne_nil]

/-- Initial parts are seen in the bytes. -/
theorem utf8_prefix_iff {a b : List Char} : utf8 a <+: utf8 b ↔ a <+: b := by
  constructor
  · rintro ⟨rest, hrest⟩
    refine List.isPrefix_of_utf8Encode_append_eq_utf8Encode rest.toByteArray ?_
    rw [← toByteArray_utf8, ← toByteArray_utf8, ← hrest, List.toByteArray_append]
  · rintro ⟨rest, rfl⟩
    simp

theorem utf8EncodeChar_of_lt {c : Char} (h : c.toNat < 128) :
    String.utf8EncodeChar c = [c.toUInt8] := by
  have hc : c.val.toNat ≤ 127 := Nat.le_of_lt_succ h
  unfold String.utf8EncodeChar
  rw [if_pos hc]
  rfl

theorem utf8_cons_of_lt {c : Char} (h : c.toNat < 128) (text : List Char) :
    utf8 (c :: text) = c.toUInt8 :: utf8 text := by
  rw [utf8_cons, utf8EncodeChar_of_lt h, List.singleton_append]

theorem le_of_mem_utf8EncodeChar {c : Char} (h : 128 ≤ c.toNat) :
    ∀ b ∈ String.utf8EncodeChar c, 128 ≤ b.toNat := by
  fun_cases String.utf8EncodeChar c with
  | case1 v hv => exact absurd h (Nat.not_le.2 (Nat.lt_succ_of_le hv))
  | case2 v => simp; omega
  | case3 v => simp; omega
  | case4 v => simp; omega

theorem ofUInt8_toUInt8 {c : Char} (h : c.toNat < 128) : Char.ofUInt8 c.toUInt8 = c := by
  refine Char.ext (UInt32.toNat_inj.1 ?_)
  change c.val.toNat % 256 = c.val.toNat
  exact Nat.mod_eq_of_lt (Nat.lt_trans h (by decide))

theorem toNat_ofUInt8 (b : UInt8) : (Char.ofUInt8 b).toNat = b.toNat :=
  UInt8.toNat_toUInt32 b

/-! ## Properties of single bytes -/

/-- Only ASCII characters have the property. -/
def IsAscii (p : Char → Bool) : Prop := ∀ c, p c = true → c.toNat < 128

/-- The byte is an ASCII character with the property. -/
def inByte (p : Char → Bool) (b : UInt8) : Bool := p (Char.ofUInt8 b)

namespace IsAscii

variable {p : Char → Bool} {c : Char} {text : List Char}

theorem beq (h : c.toNat < 128) : IsAscii (· == c) := by
  intro d hd
  rwa [eq_of_beq hd]

theorem isBoundary (m : SplitMode) : IsAscii m.isBoundary := by
  intro c hc
  simp only [SplitMode.isBoundary, Bool.or_eq_true, Bool.and_eq_true, beq_iff_eq] at hc
  obtain (rfl | rfl) | ⟨rfl, -⟩ := hc <;> decide

theorem inByte_toUInt8 (hp : IsAscii p) (hc : p c = true) : inByte p c.toUInt8 = true := by
  rwa [inByte, ofUInt8_toUInt8 (hp c hc)]

/-- No byte has a property that no character has. -/
theorem inByte_eq_false (hp : IsAscii p) (h : ∀ c ∈ text, p c = false) :
    ∀ b ∈ utf8 text, inByte p b = false := by
  intro b hb
  obtain ⟨c, hc, hb⟩ := List.mem_flatMap.1 hb
  rcases Nat.lt_or_ge c.toNat 128 with hlt | hge
  · rw [utf8EncodeChar_of_lt hlt, List.mem_singleton] at hb
    rw [hb, inByte, ofUInt8_toUInt8 hlt]
    exact h c hc
  · have hhigh := le_of_mem_utf8EncodeChar hge b hb
    rw [inByte, Bool.eq_false_iff]
    intro hbyte
    have hlow := hp _ hbyte
    rw [toNat_ofUInt8] at hlow
    omega

end IsAscii

/-! ## Searching -/

/-- The index of the last element with the property. -/
def lastIdx? {α : Type} (p : α → Bool) (l : List α) : Option Nat :=
  (l.reverse.findIdx? p).map fun i => l.length - 1 - i

section

variable {α : Type} {q : α → Bool} {init tail : List α} {a : α}

theorem findIdx?_append_cons (hinit : ∀ b ∈ init, q b = false) (ha : q a = true) :
    (init ++ a :: tail).findIdx? q = some init.length := by
  have hnone : init.findIdx? q = none := List.findIdx?_eq_none_iff.2 hinit
  simp [List.findIdx?_append, hnone, List.findIdx?_cons, ha]

theorem lastIdx?_append_cons (ha : q a = true) (htail : ∀ b ∈ tail, q b = false) :
    lastIdx? q (init ++ a :: tail) = some init.length := by
  have hreverse : (init ++ a :: tail).reverse = tail.reverse ++ a :: init.reverse := by simp
  rw [lastIdx?, hreverse, findIdx?_append_cons (fun b hb => htail b (List.mem_reverse.1 hb)) ha]
  simp

theorem lastIdx?_eq_none_iff {l : List α} : lastIdx? q l = none ↔ ∀ b ∈ l, q b = false := by
  simp [lastIdx?, List.findIdx?_eq_none_iff]

end

section

variable {p : Char → Bool} (hp : IsAscii p)

include hp

/-- The first byte with a property is the first such character. -/
theorem findIdx?_utf8 {before after : List Char} {c : Char} (hbefore : ∀ d ∈ before, p d = false)
    (hc : p c = true) :
    (utf8 (before ++ c :: after)).findIdx? (inByte p) = some (utf8 before).length := by
  rw [utf8_append, utf8_cons_of_lt (hp c hc)]
  exact findIdx?_append_cons (hp.inByte_eq_false hbefore) (hp.inByte_toUInt8 hc)

/-- The last byte with a property is the character behind which the text is cut. -/
theorem lastIdx?_utf8 (text : List Char) : (lastIdx? (inByte p) (utf8 text)).map (· + 1) =
    (cutAfterLast p text).map fun cut => (utf8 cut.1).length := by
  cases hcut : cutAfterLast p text with
  | none =>
    rw [cutAfterLast_eq_none_iff] at hcut
    rw [lastIdx?_eq_none_iff.2 (hp.inByte_eq_false hcut)]
    rfl
  | some cut =>
    obtain ⟨head, tail⟩ := cut
    obtain ⟨rfl, ⟨init, c, rfl, hc⟩, htail⟩ := cutAfterLast_eq_some_iff.1 hcut
    have hutf8 : utf8 (init ++ [c] ++ tail) = utf8 init ++ c.toUInt8 :: utf8 tail := by
      simp [utf8_cons_of_lt (hp c hc)]
    rw [hutf8, lastIdx?_append_cons (hp.inByte_toUInt8 hc) (hp.inByte_eq_false htail)]
    simp [utf8_cons_of_lt (hp c hc)]

end

/-- A leading ASCII character is seen in the first byte. -/
theorem head?_utf8_eq_some_iff {c : Char} (h : c.toNat < 128) (text : List Char) :
    (utf8 text).head? = some c.toUInt8 ↔ text.head? = some c := by
  have hsingle : ∀ {α : Type} (a : α) (l : List α), l.head? = some a ↔ [a] <+: l := by
    intro α a l
    cases l <;> simp [eq_comm]
  have hbyte : utf8 [c] = [c.toUInt8] := utf8_cons_of_lt h []
  rw [hsingle, hsingle, ← hbyte, utf8_prefix_iff]

/-- A final ASCII character is seen in the last byte. -/
theorem getLast?_utf8_eq_some_iff {c : Char} (h : c.toNat < 128) (text : List Char) :
    (utf8 text).getLast? = some c.toUInt8 ↔ text.getLast? = some c := by
  have hc := (IsAscii.beq h).inByte_toUInt8 (beq_self_eq_true c)
  rcases List.eq_nil_or_concat text with rfl | ⟨init, d, rfl⟩
  · simp
  · have hne : utf8 [d] ≠ [] := by simp
    rw [List.concat_eq_append, utf8_append, List.getLast?_append_of_ne_nil _ hne]
    constructor
    · intro hlast
      by_contra hd
      have hd : (d == c) = false := by simpa using hd
      have hno : ∀ b ∈ utf8 [d], inByte (· == c) b = false :=
        (IsAscii.beq h).inByte_eq_false (by simpa using hd)
      rw [hno _ (List.mem_of_getLast? hlast)] at hc
      exact absurd hc Bool.false_ne_true
    · intro hlast
      obtain rfl : d = c := by simpa using hlast
      simp [utf8_cons_of_lt h]

/-- A text behind a head that does not end with a character ends with it if the whole does. -/
theorem exists_concat_of_getLast? {c : Char} {text : List Char} (head : List Char)
    (hlast : (head ++ text).getLast? = some c) (hhead : head.getLast? ≠ some c) :
    ∃ init, text = init ++ [c] := by
  rcases List.eq_nil_or_concat text with rfl | ⟨init, d, rfl⟩
  · rw [List.append_nil] at hlast
    exact absurd hlast hhead
  · rw [List.concat_eq_append, ← List.append_assoc, List.getLast?_concat] at hlast
    exact ⟨init, by rw [List.concat_eq_append, Option.some.inj hlast]⟩

/-! ## Offsets -/

/-- The index at which the path of an IRI starts, behind its first colon, and behind the two slashes
if such follow the colon. -/
def pathIdx? (body : List UInt8) : Option Nat := do
  let colon ← body.findIdx? (inByte (· == ':'))
  return if utf8 [':', '/', '/'] <+: body.drop colon then colon + 3 else colon + 1

theorem pathIdx?_utf8 (body : List Char) :
    pathIdx? (utf8 body) = (cutScheme body).map fun cut => (utf8 cut.1).length := by
  have hcolon : IsAscii (· == ':') := IsAscii.beq (by decide)
  by_cases hmem : ':' ∈ body
  · obtain ⟨before, after, rfl, hbefore⟩ := List.eq_append_cons_of_mem hmem
    have hidx : (utf8 (before ++ ':' :: after)).findIdx? (inByte (· == ':')) =
        some (utf8 before).length :=
      findIdx?_utf8 hcolon (beq_eq_false_of_notMem hbefore) rfl
    have hdrop : (utf8 (before ++ ':' :: after)).drop (utf8 before).length =
        utf8 (':' :: after) := by simp
    obtain ⟨path, hbody, hscheme⟩ := isScheme_schemeEnd hbefore after
    rw [pathIdx?, hidx, Option.bind_eq_bind, Option.bind_some, hdrop, hbody,
      cutScheme_append hscheme]
    simp only [utf8_prefix_iff, List.cons_prefix_cons, true_and, schemeEnd, Option.map_some,
      utf8_append, List.length_append, apply_ite utf8, apply_ite List.length]
    split <;> rfl
  · have hnone : (utf8 body).findIdx? (inByte (· == ':')) = none :=
      List.findIdx?_eq_none_iff.2 (hcolon.inByte_eq_false (beq_eq_false_of_notMem hmem))
    rw [pathIdx?, hnone, cutScheme_eq_none_iff.2 hmem]
    rfl

/-- Behind the index of the path stand the bytes of the path. -/
theorem drop_pathIdx?_utf8 {body scheme path : List Char}
    (h : cutScheme body = some (scheme, path)) :
    (utf8 body).drop (utf8 scheme).length = utf8 path := by
  obtain ⟨rfl, -⟩ := cutScheme_eq_some_iff.1 h
  simp

/-- The bytes between the brackets of an IRI, unless they start with a bracket. -/
def bodyBytes? (term : List UInt8) : Option (List UInt8) :=
  if 2 ≤ term.length ∧ term.getLast? = some '>'.toUInt8 ∧ ¬ utf8 ['<', '<'] <+: term then
    some ((term.take (term.length - 1)).drop 1)
  else none

theorem utf8_iri (body : List Char) :
    utf8 ('<' :: (body ++ ['>'])) = '<'.toUInt8 :: (utf8 body ++ ['>'.toUInt8]) := by
  rw [utf8_cons_of_lt (by decide), utf8_append, utf8_cons_of_lt (by decide), utf8_nil]

theorem bodyBytes?_utf8 {term : List Char} (hterm : term.head? = some '<') :
    bodyBytes? (utf8 term) = (iriBody? term).map utf8 := by
  have hlast := getLast?_utf8_eq_some_iff (c := '>') (by decide) term
  simp only [bodyBytes?, hlast, utf8_prefix_iff]
  split
  · rename_i h
    obtain ⟨-, hlast, hquoted⟩ := h
    obtain ⟨text, rfl⟩ := List.head?_eq_some_iff.1 hterm
    obtain ⟨body, rfl⟩ := exists_concat_of_getLast? ['<'] hlast (by decide)
    have hhead : body.head? ≠ some '<' := by
      intro hhead
      obtain ⟨rest, rfl⟩ := List.head?_eq_some_iff.1 hhead
      exact hquoted ⟨rest ++ ['>'], rfl⟩
    rw [iriBody?_eq_some_iff.2 ⟨rfl, hhead⟩, utf8_iri]
    simp
  · rename_i h
    rcases hbody : iriBody? term with _ | body
    · rfl
    · obtain ⟨rfl, hhead⟩ := iriBody?_eq_some_iff.1 hbody
      refine absurd ⟨?_, List.getLast?_eq_some_iff.2 ⟨'<' :: body, rfl⟩, ?_⟩ h
      · rw [utf8_iri]
        simp
      · rintro ⟨rest, hrest⟩
        refine hhead ?_
        cases body with
        | nil => cases hrest
        | cons c body =>
          exact congrArg some (List.cons_eq_cons.1 (List.cons_eq_cons.1 hrest).2).1.symm

/-- The offset at which an IRI is cut. -/
def iriOffset? (m : SplitMode) (term : List UInt8) : Option Nat := do
  let body ← bodyBytes? term
  let path ← pathIdx? body
  let boundary ← lastIdx? (inByte m.isBoundary) (body.drop path)
  return 1 + path + boundary + 1

theorem iriOffset?_utf8 (m : SplitMode) {term : List Char} (hterm : term.head? = some '<') :
    iriOffset? m (utf8 term) = (cutIri m term).map fun cut => (utf8 cut.1).length := by
  unfold iriOffset? cutIri
  rw [bodyBytes?_utf8 hterm]
  rcases iriBody? term with _ | body
  · rfl
  · simp only [Option.map_some, Option.bind_eq_bind, Option.bind_some, pathIdx?_utf8]
    rcases hscheme : cutScheme body with _ | ⟨scheme, path⟩
    · rfl
    · have hboundary := lastIdx?_utf8 (IsAscii.isBoundary m) path
      simp only [Option.map_some, Option.bind_some, drop_pathIdx?_utf8 hscheme]
      rcases hcut : cutAfterLast m.isBoundary path with _ | ⟨space, name⟩
      · rw [hcut, Option.map_none, Option.map_eq_none_iff] at hboundary
        rw [hboundary]
        rfl
      · rw [hcut, Option.map_some, Option.map_eq_some_iff] at hboundary
        obtain ⟨boundary, hidx, hlength⟩ := hboundary
        simp [hidx, utf8_cons_of_lt (c := '<') (by decide), ← hlength]
        omega

/-- The bytes may follow the last quote of a literal that is cut. -/
def isEnding (rest : List UInt8) : Bool :=
  1 < rest.length ∧ utf8 ['@'] <+: rest ∨
    4 < rest.length ∧ utf8 ['^', '^', '<'] <+: rest ∧ rest.getLast? = some '>'.toUInt8

theorem isEnding_utf8 (rest : List Char) : isEnding (utf8 rest) = isAnnotated rest := by
  have hlast := getLast?_utf8_eq_some_iff (c := '>') (by decide) rest
  have hpos : ∀ {text : List Char}, 0 < (utf8 text).length ↔ text ≠ [] := by
    simp [List.length_pos_iff]
  have hat : ∀ tag, (utf8 ('@' :: tag)).length = (utf8 tag).length + 1 := fun tag => by
    rw [utf8_cons_of_lt (by decide), List.length_cons]
  have htype : ∀ type, (utf8 ('^' :: '^' :: '<' :: (type ++ ['>']))).length =
      (utf8 type).length + 4 := fun type => by
    rw [utf8_cons_of_lt (by decide), utf8_cons_of_lt (by decide), utf8_iri]
    simp
  rw [Bool.eq_iff_iff, isAnnotated_eq_true_iff]
  simp only [isEnding, hlast, utf8_prefix_iff, decide_eq_true_eq]
  constructor
  · rintro (⟨hlength, tag, rfl⟩ | ⟨hlength, ⟨text, rfl⟩, hlast⟩)
    · have hlength : 1 < (utf8 tag).length + 1 := by rwa [← hat]
      exact .inl ⟨tag, hpos.1 (by omega), rfl⟩
    · obtain ⟨type, rfl⟩ := exists_concat_of_getLast? _ hlast (by decide)
      have hlength : 4 < (utf8 type).length + 4 := by rwa [← htype]
      exact .inr ⟨type, hpos.1 (by omega), rfl⟩
  · rintro (⟨tag, hne, rfl⟩ | ⟨type, hne, rfl⟩)
    · have := hpos.2 hne
      exact .inl ⟨by rw [hat]; omega, tag, rfl⟩
    · have := hpos.2 hne
      exact .inr ⟨by rw [htype]; omega, ⟨type ++ ['>'], rfl⟩,
        List.getLast?_eq_some_iff.2 ⟨'^' :: '^' :: '<' :: type, rfl⟩⟩

/-- The offset at which a literal is cut. -/
def literalOffset? (term : List UInt8) : Option Nat := do
  let close ← lastIdx? (inByte (· == '"')) term
  if close ≠ 0 ∧ isEnding (term.drop (close + 1)) = true then some close else none

theorem literalOffset?_utf8 {term : List Char} (hterm : term.head? = some '"') :
    literalOffset? (utf8 term) = (cutLiteral term).map fun cut => (utf8 cut.1).length := by
  have hquote : IsAscii (· == '"') := IsAscii.beq (by decide)
  obtain ⟨text, rfl⟩ := List.head?_eq_some_iff.1 hterm
  rw [literalOffset?, cutLiteral]
  rcases hcut : cutAfterLast (· == '"') text with _ | ⟨quoted, ending⟩
  · -- the only quote is the first byte
    have hidx : lastIdx? (inByte (· == '"')) ([] ++ '"'.toUInt8 :: utf8 text) = some 0 :=
      lastIdx?_append_cons rfl (hquote.inByte_eq_false (cutAfterLast_eq_none_iff.1 hcut))
    rw [utf8_cons_of_lt (by decide), ← List.nil_append (_ :: _), hidx]
    rfl
  · obtain ⟨rfl, ⟨init, c, rfl, hc⟩, hending⟩ := cutAfterLast_eq_some_iff.1 hcut
    obtain rfl := eq_of_beq hc
    have hutf8 : utf8 ('"' :: (init ++ ['"'] ++ ending)) =
        utf8 ('"' :: init) ++ '"'.toUInt8 :: utf8 ending := by
      simp [utf8_cons_of_lt (c := '"') (by decide)]
    have hidx : lastIdx? (inByte (· == '"')) (utf8 ('"' :: (init ++ ['"'] ++ ending))) =
        some (utf8 ('"' :: init)).length := by
      rw [hutf8]
      exact lastIdx?_append_cons rfl (hquote.inByte_eq_false hending)
    have hdrop : (utf8 ('"' :: (init ++ ['"'] ++ ending))).drop
        ((utf8 ('"' :: init)).length + 1) = utf8 ending := by
      rw [hutf8, ← List.drop_drop, List.drop_left]
      rfl
    have hpos : (utf8 ('"' :: init)).length ≠ 0 := by simp
    simp only [hidx, Option.bind_eq_bind, Option.bind_some, hdrop, isEnding_utf8, hpos, ne_eq,
      not_false_eq_true, true_and, List.dropLast_concat]
    split <;> rfl

/-- The end at which the shared part of a split sits, and the number of bytes before the cut. -/
def Split.offset? : Split → Option (Edge × Nat)
  | whole _ => none
  | parted .leading shared _ => some (.leading, shared.utf8ByteSize)
  | parted .trailing _ rest => some (.trailing, rest.utf8ByteSize)

/-- The cut of a split lies between two characters of the term. -/
theorem Split.isValid_of_offset? {split : Split} {edge : Edge} {n : Nat}
    (h : split.offset? = some (edge, n)) : (String.Pos.Raw.mk n).IsValid split.join := by
  rw [String.Pos.Raw.isValid_iff_exists_append]
  match split, h with
  | parted .leading shared rest, h =>
    obtain ⟨-, rfl⟩ := Prod.mk.inj (Option.some.inj h)
    exact ⟨shared, rest, rfl, rfl⟩
  | parted .trailing shared rest, h =>
    obtain ⟨-, rfl⟩ := Prod.mk.inj (Option.some.inj h)
    exact ⟨rest, shared, rfl, rfl⟩

namespace Splitter

/-- The end at which a term shares bytes, and the offset at which it is cut, found by searching its
bytes. -/
def offset? (s : Splitter) (term : List UInt8) : Option (Edge × Nat) :=
  if term.head? = some '<'.toUInt8 ∧ s.mode.cutsIris = true then
    (iriOffset? s.mode term).filter (s.minShared.toNat ≤ ·) |>.map (Edge.leading, ·)
  else if term.head? = some '"'.toUInt8 ∧ s.mode.cutsLiterals = true then
    (literalOffset? term).filter (s.minShared.toNat ≤ term.length - ·) |>.map (Edge.trailing, ·)
  else none

/-- **The bytes are cut where the text is cut.** -/
theorem offset?_toUTF8 (s : Splitter) (term : String) :
    s.offset? (octets term.toUTF8) = (s.split term).offset? := by
  have hbracket := head?_utf8_eq_some_iff (c := '<') (by decide) term.toList
  have hquote := head?_utf8_eq_some_iff (c := '"') (by decide) term.toList
  rw [octets_toUTF8]
  simp only [offset?, hbracket, hquote, split]
  rcases hcut : cut s.mode term with whole | ⟨_ | _, shared, rest⟩
  · obtain ⟨-, hiri, hliteral⟩ := cut_eq_whole_iff.1 hcut
    split
    · rename_i h
      rw [iriOffset?_utf8 _ h.1, hiri h.2]
      rfl
    · split
      · rename_i h
        rw [literalOffset?_utf8 h.1, hliteral h.2]
        rfl
      · rfl
  · obtain ⟨hmode, hcut⟩ := cut_eq_leading_iff_cutIri.1 hcut
    have hhead := head?_of_cutIri hcut
    rw [if_pos ⟨hhead, hmode⟩, iriOffset?_utf8 _ hhead, hcut, Option.map_some, Option.filter_some,
      length_utf8_toList]
    simp only [decide_eq_true_eq]
    split <;> rfl
  · obtain ⟨-, rfl, -⟩ := cut_eq_trailing_iff.1 hcut
    obtain ⟨hmode, hcut⟩ := cut_eq_trailing_iff_cutLiteral.1 hcut
    have hhead := head?_of_cutLiteral hcut
    rw [if_neg fun h => absurd (h.1.symm.trans hhead) (by decide), if_pos ⟨hhead, hmode⟩,
      literalOffset?_utf8 hhead, hcut, Option.map_some, Option.filter_some, length_utf8_toList,
      length_utf8_toList, String.utf8ByteSize_append, Nat.add_sub_cancel_left]
    simp only [decide_eq_true_eq]
    split <;> rfl

end Splitter

end TripleStore
