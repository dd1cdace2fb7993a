import TripleStore.Container.Section
import TripleStore.Triple

/-!
# Errors

An error is a cause: a fault of the file tree, a misuse of an operation, damage found in a file, an
id or position out of range, a term that the first pass of a build did not see, a destination that
is taken, or a settings text that does not parse. `StoreError.message` words each cause.

A look-up that finds nothing is not an error: it answers id 0 or an empty sequence.
-/

namespace TripleStore

/-! ## Causes -/

/-- Why the file tree refused an operation. -/
inductive FileFault
  | notFound
  | alreadyExists
  | isADirectory
  | notADirectory
  /-- Something other than a file cannot be copied. -/
  | notAFile
  /-- A directory with something in it cannot be removed or replaced. -/
  | notEmpty
  /-- A directory cannot be removed by a path that ends in a dot. -/
  | dotName
  /-- A path that ends in dots, or names nothing but a root, cannot be replaced. -/
  | busy
  /-- A directory has no bytes to open. -/
  | noContent
  /-- A file of sorted records ends inside a record. -/
  | endsEarly
  /-- The length in front of a record has more groups than a number can. -/
  | lengthTooLong
  deriving DecidableEq, Repr

/-- A call or an input that the operation does not accept. -/
inductive Misuse
  | shortHeader
  | wrongMagic
  | unknownVersion
  | missingSection
  | noValueWidth
  | unsplitCode
  | stringsNotAscending
  | rowsNotSorted
  | codedTerm
  | visitCount
  | notComposite
  | compressionUnavailable
  deriving DecidableEq, Repr

/-- What is wrong with the content of a file. -/
inductive Damage
  | noFooterAtOpen
  | tocOffset
  | tocUnreadable
  | sectionOutside (kind : SectionKind)
  | sectionsOverlap
  | offsetWidth
  | valueWidth
  | offsetTableOverflow
  | offsetTableSize (held need : Nat)
  | sectionChecksum (kind : SectionKind)
  | noFooter
  | bodyChecksum
  | offsetPositionOverflow
  | offsetOutside (i : Nat)
  | valueOutside
  | stringCountOverflow
  | stringSpan (id start stop length : Nat)
  | stringText (id : Nat)
  | firstStringOffset (offset : Nat)
  | stringOffsetsDecrease (i before offset : Nat)
  | lastStringOffset (offset length : Nat)
  | unknownSplitMode (tag : Nat)
  | danglingShared (id shared : Nat)
  | termText (id : Nat)
  | unknownRoleOrder
  | noIdWidth
  | raggedKeys
  | rowCountOverflow
  | rowSectionSizes (rows byValue need : Nat)
  | keysWithoutRows
  | keySpan (i start stop count : Nat)
  | rowsPastLastKey
  | firstKeyStart
  | rowDirectoryEnd (last count : Nat)
  | keysNotAscending (i : Nat)
  | emptyKey (key : UInt64)
  | rowsUnsorted (kind : SectionKind) (key : UInt64) (row : Nat)
  | secondaryRowCount (secondary primary : Nat)
  | wrongRoleOrder (file found : RoleOrder)
  | indexSizes (spo pso ops : Nat)
  deriving DecidableEq, Repr

/-- What is counted where an id or a position is out of range. -/
inductive Counted
  | termId
  | sharedId
  | offsetIndex
  | valueOffset
  deriving DecidableEq, Repr

/-- Why building, opening or reading a store failed. -/
inductive StoreError
  /-- The file tree refused. -/
  | io (fault : FileFault)
  /-- The caller asked for something that is not done. -/
  | invalid (misuse : Misuse)
  /-- A file failed a bounds or integrity check. -/
  | corrupt (damage : Damage)
  /-- An id or position is not below its limit. -/
  | outOfRange (what : Counted) (index limit : Nat)
  /-- A term reached a later pass of a build without an earlier one. -/
  | unseenTerm (term : String)
  /-- A finished set of files is never written over. -/
  | destinationExists (destination : String)
  /-- The text of the settings does not parse. -/
  | badSettings
  deriving DecidableEq, Repr

/-- Answers with errors by cause. -/
abbrev Result (α : Type) := Except StoreError α

/-- A sequence whose items may fail one by one. -/
abbrev Results (α : Type) := List (Result α)

/-! ## Messages -/

/-- The text of a misuse. -/
def Misuse.message : Misuse → String
  | shortHeader => "short or invalid header"
  | wrongMagic => "bad magic"
  | unknownVersion => "unsupported format version"
  | missingSection => "missing required section"
  | noValueWidth => "table has no fixed-width values"
  | unsplitCode => "cannot code an unsplit term"
  | stringsNotAscending => "dictionary input is not strictly ascending"
  | rowsNotSorted => "triple input is not sorted"
  | codedTerm => "term starts like an inline code and cannot be stored"
  | visitCount => "second pass visited a different number of terms than the first"
  | notComposite => "not a composite strings file"
  | compressionUnavailable => "zstd feature not enabled"

/-- The text of a damage. -/
def Damage.message : Damage → String
  | noFooterAtOpen => "missing footer (truncated file?)"
  | tocOffset => "TOC offset out of bounds"
  | tocUnreadable => "TOC parse failed"
  | sectionOutside kind => s!"section {kind.label} out of bounds"
  | sectionsOverlap => "TOC sections overlap or unsorted"
  | offsetWidth => "bad offset width"
  | valueWidth => "bad value width"
  | offsetTableOverflow => "offset table size overflows"
  | offsetTableSize held need => s!"offset table holds {held} bytes, header implies {need}"
  | sectionChecksum kind => s!"section {kind.label} CRC mismatch"
  | noFooter => "missing footer"
  | bodyChecksum => "body CRC mismatch"
  | offsetPositionOverflow => "offset position overflows"
  | offsetOutside i => s!"offset {i} lies outside the mapped region"
  | valueOutside => "value read outside the mapped region"
  | stringCountOverflow => "string count overflows"
  | stringSpan id start stop length =>
    s!"string {id} spans {start}..{stop} outside {length} string bytes"
  | stringText id => s!"string {id} is not valid UTF-8"
  | firstStringOffset offset => s!"first string offset is {offset}, expected 0"
  | stringOffsetsDecrease i before offset =>
    s!"string offsets decrease at entry {i} ({before} > {offset})"
  | lastStringOffset offset length =>
    s!"last string offset {offset} != string region length {length}"
  | unknownSplitMode tag => s!"unknown split mode tag {tag}"
  | danglingShared id shared => s!"term {id} references missing shared id {shared}"
  | termText id => s!"term {id} is not valid UTF-8"
  | unknownRoleOrder => "unknown triple order"
  | noIdWidth => "triple index without id width"
  | raggedKeys => "key section is not a whole number of ids"
  | rowCountOverflow => "row count overflows"
  | rowSectionSizes rows byValue need =>
    s!"row sections hold {rows}/{byValue} bytes, header implies {need}"
  | keysWithoutRows => "keys and rows disagree on emptiness"
  | keySpan i start stop count => s!"key {i} owns rows {start}..{stop} of {count}"
  | rowsPastLastKey => "rows past the last key"
  | firstKeyStart => "first key does not start at row 0"
  | rowDirectoryEnd last count => s!"row directory ends at {last}, header declares {count} rows"
  | keysNotAscending i => s!"keys not strictly ascending at {i}"
  | emptyKey key => s!"key {key} owns no rows"
  | rowsUnsorted kind key row => s!"{kind.label} of key {key} not sorted at row {row}"
  | secondaryRowCount secondary primary =>
    s!"secondary rows {secondary} != primary rows {primary}"
  | wrongRoleOrder file found => s!"{file.fileName} holds a {found.label} index"
  | indexSizes spo pso ops => s!"index sizes differ: spo {spo}, pso {pso}, ops {ops}"

/-- Name of what is counted. -/
def Counted.label : Counted → String
  | termId => "term id"
  | sharedId => "shared id"
  | offsetIndex => "offset index"
  | valueOffset => "value byte offset"

/-- The text of a fault. -/
def FileFault.message : FileFault → String
  | notFound => "entity not found"
  | alreadyExists => "entity already exists"
  | isADirectory => "is a directory"
  | notADirectory => "not a directory"
  | notAFile => "the source path is neither a regular file nor a symlink to a regular file"
  | notEmpty => "directory not empty"
  | dotName => "invalid input parameter"
  | busy => "resource busy"
  | noContent => "a directory has no content"
  | endsEarly => "unexpected end of file"
  | lengthTooLong => "uvarint too long"

/-- The text of an error. -/
def StoreError.message : StoreError → String
  | io fault => fault.message
  | invalid misuse => misuse.message
  | corrupt damage => damage.message
  | outOfRange what index limit => s!"{what.label} {index} out of range (limit {limit})"
  | unseenTerm term => s!"term not visited in the first pass: {term}"
  | destinationExists destination => s!"destination {destination} already exists"
  | badSettings => "invalid configuration"

end TripleStore
