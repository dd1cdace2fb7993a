import TripleStore.Octets

/-!
# Splitting a term into a shared and a remaining part

Terms are written as in N-Triples. Many IRIs share a namespace, many literals share a language tag
or a datatype; a splitter cuts such a term in two. An IRI `<body>` is cut after the last boundary of
its body that follows the scheme, and shares its leading part; a literal is cut before its closing
quote, and shares its trailing part. `Split.join` gives the term back. All the characters that
decide a cut are single bytes in UTF-8, so the lengths of the parts are counted in bytes and the
parts themselves are texts.
-/

namespace TripleStore

/-! ## Splits -/

/-- The end of a term at which its shared part sits. -/
inductive Edge
  /-- The shared part comes first. -/
  | leading
  /-- The shared part comes last. -/
  | trailing
  deriving DecidableEq, Repr

/-- A term, whole or cut in two. -/
inductive Split
  | whole (term : String)
  | parted (edge : Edge) (shared rest : String)
  deriving DecidableEq, Repr

namespace Split

/-- The end at which the shared part sits, if there is one. -/
def edge? : Split → Option Edge
  | whole _ => none
  | parted edge _ _ => some edge

/-- The shared part, empty for a whole term. -/
def shared : Split → String
  | whole _ => ""
  | parted _ shared _ => shared

/-- The remaining part, empty for a whole term. -/
def rest : Split → String
  | whole _ => ""
  | parted _ _ rest => rest

/-- The remaining part, or the whole term. -/
def restOrWhole : Split → String
  | whole term => term
  | parted _ _ rest => rest

/-- The term that was split. -/
def join : Split → String
  | whole term => term
  | parted .leading shared rest => shared ++ rest
  | parted .trailing shared rest => rest ++ shared

end Split

/-! ## Modes -/

/-- Which parts of terms are shared. -/
inductive SplitMode
  /-- None. -/
  | never
  /-- Namespaces of IRIs. -/
  | namespaces
  /-- Language tags and datatypes of literals. -/
  | literals
  /-- Both. -/
  | both
  /-- Both, where a colon also ends a namespace. -/
  | bothColon
  deriving DecidableEq, Repr

namespace SplitMode

/-- The number that stores a mode in a file. -/
def tag : SplitMode → Nat
  | never => 0
  | namespaces => 1
  | literals => 2
  | both => 3
  | bothColon => 4

/-- The mode that a stored number names. -/
def ofTag? : Nat → Option SplitMode
  | 0 => some never
  | 1 => some namespaces
  | 2 => some literals
  | 3 => some both
  | 4 => some bothColon
  | _ => none

@[simp] theorem ofTag?_tag (m : SplitMode) : ofTag? m.tag = some m := by
  cases m <;> rfl

/-- The mode cuts IRIs. -/
def cutsIris : SplitMode → Bool
  | namespaces | both | bothColon => true
  | never | literals => false

/-- The mode cuts literals. -/
def cutsLiterals : SplitMode → Bool
  | literals | both | bothColon => true
  | never | namespaces => false

/-- The characters that end a namespace. -/
def isBoundary (m : SplitMode) (c : Char) : Bool :=
  c == '/' || c == '#' || (c == ':' && m == bothColon)

end SplitMode

/-! ## Cuts -/

/-- Cuts a list after its last element with the property. -/
def cutAfterLast {α : Type} (p : α → Bool) (l : List α) : Option (List α × List α) :=
  let tail := l.reverse.takeWhile (fun a => !p a)
  let head := l.reverse.dropWhile (fun a => !p a)
  if head.isEmpty then none else some (head.reverse, tail.reverse)

/-- The body of an IRI up to the end of its scheme, that is, after its first colon, and after the
two slashes if such follow; and the remaining body. -/
def cutScheme (body : List Char) : Option (List Char × List Char) :=
  match body.dropWhile (· != ':') with
  | [] => none
  | _ :: '/' :: '/' :: after => some (body.takeWhile (· != ':') ++ [':', '/', '/'], after)
  | _ :: after => some (body.takeWhile (· != ':') ++ [':'], after)

/-- The body of a term written between angle brackets, unless it starts with a bracket itself. -/
def iriBody? : List Char → Option (List Char)
  | '<' :: '<' :: _ => none
  | '<' :: text => if text.getLast? = some '>' then some text.dropLast else none
  | _ => none

/-- An IRI cut after the last boundary behind its scheme: namespace, then the remaining part. -/
def cutIri (m : SplitMode) (term : List Char) : Option (List Char × List Char) := do
  let body ← iriBody? term
  let (scheme, path) ← cutScheme body
  let (space, name) ← cutAfterLast m.isBoundary path
  return ('<' :: (scheme ++ space), name ++ ['>'])

/-- What may follow the text of a literal: a language tag or a datatype. -/
def isAnnotated : List Char → Bool
  | '@' :: _ :: _ => true
  | '^' :: '^' :: '<' :: type => 2 ≤ type.length && type.getLast? == some '>'
  | _ => false

/-- A literal cut before its last quote: the remaining part, then the quote and what follows it. -/
def cutLiteral : List Char → Option (List Char × List Char)
  | '"' :: text =>
    match cutAfterLast (· == '"') text with
    | some (quoted, annotation) =>
      if isAnnotated annotation then some ('"' :: quoted.dropLast, '"' :: annotation) else none
    | none => none
  | _ => none

/-! ## Splitters -/

/-- A mode, and the least number of bytes worth sharing. -/
structure Splitter where
  mode : SplitMode
  minShared : UInt16
  deriving DecidableEq, Repr

namespace Splitter

/-- The cut of a term before lengths are looked at. -/
def cut (mode : SplitMode) (term : String) : Split :=
  let iri := if mode.cutsIris then cutIri mode term.toList else none
  let literal := if mode.cutsLiterals then cutLiteral term.toList else none
  match iri, literal with
  | some (space, name), _ => .parted .leading (String.ofList space) (String.ofList name)
  | none, some (text, annotation) =>
    .parted .trailing (String.ofList annotation) (String.ofList text)
  | none, none => .whole term

/-- The split of a term. Shared parts that are too short stay in their terms. -/
def split (s : Splitter) (term : String) : Split :=
  match cut s.mode term with
  | .parted edge shared rest =>
    if s.minShared.toNat ≤ shared.utf8ByteSize then .parted edge shared rest else .whole term
  | .whole term => .whole term

end Splitter

end TripleStore
