import TripleStore.Result
import TripleStore.Settings
import TripleStore.Settings.Json

/-!
# Settings as text

Settings are a JSON object of the fields that differ from the default; other members are skipped, a
field that comes twice is refused. An array gives the fields in order, as many as it has. Only
blanks may follow. `Settings.ofText` answers the settings of a text or says that it does not parse.
-/

namespace TripleStore

/-- A field of the settings. -/
inductive SettingsField
  | workDir
  | sortBufferBytes
  | splitMode
  | minSharedLength
  | minSharedReuse
  | compressRuns
  deriving DecidableEq, Repr

namespace SettingsField

/-- All fields, in the order of the array form. -/
def all : List SettingsField :=
  [workDir, sortBufferBytes, splitMode, minSharedLength, minSharedReuse, compressRuns]

/-- Name of a field. -/
def name : SettingsField → String
  | workDir => "work_dir"
  | sortBufferBytes => "sort_buffer_bytes"
  | splitMode => "split_mode"
  | minSharedLength => "min_shared_len"
  | minSharedReuse => "min_shared_reuse"
  | compressRuns => "compress_runs"

/-- The field of a name. -/
def ofName? (name : String) : Option SettingsField := all.find? (·.name == name)

end SettingsField

namespace SplitMode

/-- All modes. -/
def all : List SplitMode := [never, namespaces, literals, both, bothColon]

/-- Name of a mode in settings. -/
def name : SplitMode → String
  | never => "none"
  | namespaces => "prefix"
  | literals => "suffix"
  | both => "prefix_suffix"
  | bothColon => "prefix_suffix_colon"

/-- The mode of a name. -/
def ofName? (name : String) : Option SplitMode := all.find? (·.name == name)

end SplitMode

namespace Settings

open Json

/-- A text or null. -/
def readWorkDir (text : List UInt8) : Option (Option String × List UInt8) :=
  match skipNull text with
  | some rest => some (none, rest)
  | none => (readString text).map fun (dir, rest) => (some dir, rest)

/-- The name of a mode, alone or as the only key of an object whose value is null. -/
def readSplitMode (text : List UInt8) : Option (SplitMode × List UInt8) :=
  match skipByte 123 text with
  | none => do
    let (name, text) ← readString text
    let mode ← SplitMode.ofName? name
    return (mode, text)
  | some text => do
    let (name, text) ← readString text
    let mode ← SplitMode.ofName? name
    let text ← skipByte 58 text
    let text ← skipNull text
    let text ← skipByte 125 text
    return (mode, text)

/-- Reads the value of a field into the settings. -/
def readField (s : Settings) (field : SettingsField) (text : List UInt8) :
    Option (Settings × List UInt8) :=
  match field with
  | .workDir => (readWorkDir text).map fun (v, rest) => ({ s with workDir := v }, rest)
  | .sortBufferBytes =>
    (readNat limit64 text).map fun (v, rest) => ({ s with sortBufferBytes := v }, rest)
  | .splitMode => (readSplitMode text).map fun (v, rest) => ({ s with splitMode := v }, rest)
  | .minSharedLength =>
    (readNat limit16 text).map fun (v, rest) => ({ s with minSharedLength := UInt16.ofNat v }, rest)
  | .minSharedReuse =>
    (readNat limit64 text).map fun (v, rest) => ({ s with minSharedReuse := v }, rest)
  | .compressRuns => (readBool text).map fun (v, rest) => ({ s with compressRuns := v }, rest)

/-- Reads the value of a member into the settings if it is a field that was not given yet, or skips
it. -/
def readMember (s : Settings) (given : List SettingsField) (name : String) (text : List UInt8) :
    Option (Settings × List SettingsField × List UInt8) :=
  match SettingsField.ofName? name with
  | none => (skipValue text).map fun rest => (s, given, rest)
  | some field =>
    if field ∈ given then none
    else (readField s field text).map fun (s, rest) => (s, field :: given, rest)

/-- Reads the members of an object, at least one, up to its closing brace. Each takes at least one
byte, which `fuel` counts. -/
def readMembers (s : Settings) (given : List SettingsField) :
    Nat → List UInt8 → Option (Settings × List UInt8)
  | 0, _ => none
  | fuel + 1, text => do
    let (name, text) ← readString text
    let text ← skipByte 58 text
    let (s, given, text) ← readMember s given name text
    match skipByte 44 text with
    | some text => readMembers s given fuel text
    | none => (skipByte 125 text).map (s, ·)

/-- Reads the items of an array, at least one, up to its closing bracket. -/
def readItems (s : Settings) : List SettingsField → List UInt8 → Option (Settings × List UInt8)
  | [], _ => none
  | field :: fields, text => do
    let (s, text) ← readField s field text
    match skipByte 44 text with
    | some text => readItems s fields text
    | none => (skipByte 93 text).map (s, ·)

/-- Reads settings in either form, starting from the default. -/
def read (text : List UInt8) : Option (Settings × List UInt8) :=
  match skipByte 123 text with
  | some text =>
    match skipByte 125 text with
    | some rest => some (default, rest)
    | none => readMembers default [] text.length text
  | none =>
    match skipByte 91 text with
    | some text =>
      match skipByte 93 text with
      | some rest => some (default, rest)
      | none => readItems default SettingsField.all text
    | none => none

/-- The settings of a text. -/
def ofText (text : ByteArray) : Result Settings :=
  match read (octets text) with
  | some (s, rest) => if (skipBlank rest).isEmpty then .ok s else .error .badSettings
  | none => .error .badSettings

end Settings

end TripleStore
