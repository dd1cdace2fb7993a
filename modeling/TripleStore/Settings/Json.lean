import TripleStore.Octets

/-!
# Reading JSON front to back

Readers of the parts of a JSON text that settings need. Each takes the rest of the text, as bytes,
and answers what it read and what follows, or nothing if the text is not as it should be.
`skipValue` passes over a value of any shape and depth; it checks the grammar and looks at no escape
or byte of a string beyond that. `readString` decodes a string and accepts proper UTF-8 only.
-/

namespace TripleStore.Json

/-! ## Blanks, words and digits -/

/-- The bytes of a text of ASCII characters. -/
def ascii (text : String) : List UInt8 := text.toList.map fun c => UInt8.ofNat c.toNat

/-- Space, line feed, tabulator or carriage return. -/
def isBlank (b : UInt8) : Bool := b == 32 || b == 10 || b == 9 || b == 13

/-- The text without leading blanks. -/
def skipBlank (text : List UInt8) : List UInt8 := text.dropWhile isBlank

/-- A decimal digit. -/
def isDigit (b : UInt8) : Bool := 48 ≤ b && b ≤ 57

/-- What follows a word at the front of the text. -/
def skipWord : List UInt8 → List UInt8 → Option (List UInt8)
  | [], text => some text
  | _ :: _, [] => none
  | w :: word, b :: text => if w = b then skipWord word text else none

/-- What follows a byte, after blanks. -/
def skipByte (b : UInt8) (text : List UInt8) : Option (List UInt8) :=
  skipWord [b] (skipBlank text)

/-! ## Strings -/

/-- The number of a hexadecimal digit. -/
def hexDigit? (b : UInt8) : Option Nat :=
  if 48 ≤ b ∧ b ≤ 57 then some (b.toNat - 48)
  else if 65 ≤ b ∧ b ≤ 70 then some (b.toNat - 55)
  else if 97 ≤ b ∧ b ≤ 102 then some (b.toNat - 87)
  else none

/-- The number of four hexadecimal digits, and what follows. -/
def readHex4 : List UInt8 → Option (Nat × List UInt8)
  | a :: b :: c :: d :: text => do
    let a ← hexDigit? a
    let b ← hexDigit? b
    let c ← hexDigit? c
    let d ← hexDigit? d
    return (((a * 16 + b) * 16 + c) * 16 + d, text)
  | _ => none

/-- The byte that a one-letter escape stands for. -/
def simpleEscape? (b : UInt8) : Option UInt8 :=
  if b = 34 ∨ b = 92 ∨ b = 47 then some b
  else if b = 98 then some 8
  else if b = 102 then some 12
  else if b = 110 then some 10
  else if b = 114 then some 13
  else if b = 116 then some 9
  else none

/-- The second half of a surrogate pair, and what follows. -/
def readLowSurrogate (text : List UInt8) : Option (Nat × List UInt8) := do
  let text ← skipWord [92, 117] text
  let (n, text) ← readHex4 text
  if 0xDC00 ≤ n ∧ n < 0xE000 then return (n, text) else none

/-- The code point of the escape after a backslash and a `u`, and what follows. Surrogates come in
pairs. -/
def readCodePoint (text : List UInt8) : Option (Nat × List UInt8) := do
  let (n, text) ← readHex4 text
  if 0xDC00 ≤ n ∧ n < 0xE000 then none
  else if 0xD800 ≤ n ∧ n < 0xDC00 then do
    let (low, text) ← readLowSurrogate text
    return (0x10000 + (n - 0xD800) * 0x400 + (low - 0xDC00), text)
  else return (n, text)

/-- The bytes of the escape after a backslash, and what follows. -/
def readEscape : List UInt8 → Option (ByteArray × List UInt8)
  | [] => none
  | b :: text =>
    if b = 117 then do
      let (n, text) ← readCodePoint text
      return ((String.singleton (Char.ofNat n)).toUTF8, text)
    else do
      let c ← simpleEscape? b
      return ([c].toByteArray, text)

/-- The bytes that the body of a string stands for, after those read before. Each step uses up a
byte, which `fuel` counts. -/
def decodeBody? (before : ByteArray) : Nat → List UInt8 → Option ByteArray
  | _, [] => some before
  | 0, _ => none
  | fuel + 1, b :: body =>
    if b = 92 then
      match readEscape body with
      | some (bytes, body) => decodeBody? (before ++ bytes) fuel body
      | none => none
    else if b < 32 then none
    else decodeBody? (before.push b) fuel body

/-- The body of a string up to its closing quote, after the part read before (last byte first), and
what follows. A quote after a backslash does not close. -/
def cutBody (before : List UInt8) : List UInt8 → Option (List UInt8 × List UInt8)
  | [] => none
  | b :: text =>
    if b = 34 then some (before.reverse, text)
    else if b = 92 then
      match text with
      | [] => none
      | c :: text => cutBody (c :: b :: before) text
    else cutBody (b :: before) text

/-- A string, after blanks, and what follows. -/
def readString (text : List UInt8) : Option (String × List UInt8) := do
  let text ← skipByte 34 text
  let (body, text) ← cutBody [] text
  let bytes ← decodeBody? ByteArray.empty body.length body
  let string ← String.fromUTF8? bytes
  return (string, text)

/-! ## Numbers, truth values and null -/

/-- A natural number below a limit, after blanks, and what follows. It has no sign, no leading zero,
no fraction and no exponent. -/
def readNat (limit : Nat) (text : List UInt8) : Option (Nat × List UInt8) :=
  let text := skipBlank text
  let digits := text.takeWhile isDigit
  let rest := text.dropWhile isDigit
  let n := digits.foldl (fun n b => n * 10 + (b.toNat - 48)) 0
  let leadingZero := 1 < digits.length ∧ digits.head? = some 48
  let continued := rest.head? = some 46 ∨ rest.head? = some 69 ∨ rest.head? = some 101
  if digits.isEmpty = true ∨ leadingZero ∨ continued ∨ limit ≤ n then none else some (n, rest)

/-- A truth value, after blanks, and what follows. -/
def readBool (text : List UInt8) : Option (Bool × List UInt8) :=
  let text := skipBlank text
  match skipWord (ascii "true") text with
  | some rest => some (true, rest)
  | none => (skipWord (ascii "false") text).map (false, ·)

/-- What follows a null, after blanks. -/
def skipNull (text : List UInt8) : Option (List UInt8) := skipWord (ascii "null") (skipBlank text)

/-! ## Skipping a value -/

/-- What follows at least one digit. -/
def skipDigits : List UInt8 → Option (List UInt8)
  | b :: text => if isDigit b then some (text.dropWhile isDigit) else none
  | [] => none

/-- What follows the exponent of a number, which may be absent. -/
def skipExponent : List UInt8 → Option (List UInt8)
  | b :: text =>
    if b = 69 ∨ b = 101 then
      match text with
      | s :: rest => if s = 43 ∨ s = 45 then skipDigits rest else skipDigits text
      | [] => none
    else some (b :: text)
  | [] => some []

/-- What follows the fraction and the exponent of a number, which both may be absent. -/
def skipFraction : List UInt8 → Option (List UInt8)
  | b :: text => if b = 46 then do skipExponent (← skipDigits text) else skipExponent (b :: text)
  | [] => some []

/-- What follows a number without its sign. -/
def skipUnsigned : List UInt8 → Option (List UInt8)
  | b :: text =>
    if b = 48 then
      if (text.head?.map isDigit).getD false then none else skipFraction text
    else if isDigit b then skipFraction (text.dropWhile isDigit)
    else none
  | [] => none

/-- What follows a string, given what follows its opening quote. -/
def skipString : List UInt8 → Option (List UInt8)
  | [] => none
  | b :: text =>
    if b = 34 then some text
    else if b = 92 then
      match text with
      | [] => none
      | c :: text =>
        if c = 117 then
          match text with
          | d₁ :: d₂ :: d₃ :: d₄ :: text =>
            if [d₁, d₂, d₃, d₄].all (fun d => (hexDigit? d).isSome) then skipString text else none
          | _ => none
        else if (simpleEscape? c).isSome then skipString text
        else none
    else if b < 32 then none
    else skipString text

/-- What follows a value that is neither array nor object, given without leading blanks. -/
def skipScalar : List UInt8 → Option (List UInt8)
  | [] => none
  | b :: text =>
    if b = 34 then skipString text
    else if b = 45 then skipUnsigned text
    else if isDigit b then skipUnsigned (b :: text)
    else if b = 110 then skipWord (ascii "ull") text
    else if b = 116 then skipWord (ascii "rue") text
    else if b = 102 then skipWord (ascii "alse") text
    else none

/-- What follows the key of a member and its colon. -/
def skipKey (text : List UInt8) : Option (List UInt8) := do
  let text ← skipByte 34 text
  let text ← skipString text
  skipByte 58 text

/-- An array or an object that is open. -/
inductive Bracket
  | array
  | object
  deriving DecidableEq

/-- What follows a value inside the brackets that are open, innermost first. With `ended`, a value
has just ended; else one is due. Every step but the last uses up a byte. -/
def skipInside (ended : Bool) (brackets : List Bracket) : Nat → List UInt8 → Option (List UInt8)
  | 0, _ => none
  | fuel + 1, text =>
    if ended then
      match brackets with
      | [] => some text
      | bracket :: outer =>
        match skipBlank text with
        | [] => none
        | b :: text =>
          if b = 44 then
            match bracket with
            | .array => skipInside false brackets fuel text
            | .object =>
              match skipKey text with
              | some text => skipInside false brackets fuel text
              | none => none
          else if (b = 93 ∧ bracket = .array) ∨ (b = 125 ∧ bracket = .object) then
            skipInside true outer fuel text
          else none
    else
      match skipBlank text with
      | [] => none
      | b :: text =>
        if b = 91 then
          match skipByte 93 text with
          | some text => skipInside true brackets fuel text
          | none => skipInside false (.array :: brackets) fuel text
        else if b = 123 then
          match skipByte 125 text with
          | some text => skipInside true brackets fuel text
          | none =>
            match skipKey text with
            | some text => skipInside false (.object :: brackets) fuel text
            | none => none
        else
          match skipScalar (b :: text) with
          | some text => skipInside true brackets fuel text
          | none => none

/-- What follows a value, after blanks. -/
def skipValue (text : List UInt8) : Option (List UInt8) :=
  skipInside false [] (text.length + 2) text

end TripleStore.Json
