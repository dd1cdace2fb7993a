/-!
# Paths

A path is kept as it is written and followed name by name whenever it is used, so it may come to
mean something else while the tree of files changes. Blank names and single dots name nothing and
are left out; what counts of them is how the path ends. Two dots stay among the names, since they
can only be followed from a directory that is there.
-/

namespace TripleStore

/-- How a path ends. -/
inductive PathEnd
  /-- In a name, or in nothing at all. -/
  | name
  /-- In a slash after its last name: what it names has to be a directory. -/
  | slash
  /-- In a single dot: it names the directory before the dot. -/
  | dot
  deriving DecidableEq, Repr

/-- A path as it is written. -/
structure Path where
  /-- The path starts at the root of the file system, not at the working directory. -/
  rooted : Bool
  /-- Its names, double dots included. -/
  names : List String
  ending : PathEnd
  deriving DecidableEq, Repr

namespace Path

/-- The path that is written as nothing. It names no file, but files may stand in it. -/
def blank : Path := ⟨false, [], .name⟩

/-- The path that a text names: its names separated by slashes. -/
def ofText (text : String) : Path :=
  let parts := (text.splitOn "/").filter (· != "")
  let rooted := text.startsWith "/"
  let ending : PathEnd :=
    match parts.getLast? with
    | none => if rooted then .slash else .name
    | some last => if last = "." then .dot else if text.endsWith "/" then .slash else .name
  ⟨rooted, parts.filter (· != "."), ending⟩

/-- The path is written as nothing. -/
def isBlank (p : Path) : Bool := p == blank

/-- The path of a name in a directory. -/
def child (p : Path) (name : String) : Path := ⟨p.rooted, p.names ++ [name], .name⟩

/-- The path without its last name. -/
def parent (p : Path) : Path :=
  if p.names.isEmpty then blank else ⟨p.rooted, p.names.dropLast, .name⟩

theorem length_parent (p : Path) (h : p.names ≠ []) :
    p.parent.names.length < p.names.length := by
  have := List.length_pos_iff.2 h
  simp [parent, h]
  omega

/-- The last name of the path goes up. -/
def endsUp (p : Path) : Bool := p.names.getLast? == some ".."

/-- The path ends in a name of its own, which an entry of a directory can have. -/
def isProper (p : Path) : Bool := !p.names.isEmpty && !p.endsUp && p.ending != .dot

end Path

/-- A destination: where it is, and the text by which errors name it. -/
structure Destination where
  path : Path
  text : String
  deriving DecidableEq, Repr

namespace Destination

/-- The destination that a text names. -/
def ofText (text : String) : Destination := ⟨Path.ofText text, text⟩

/-- A destination inside this one. -/
def child (d : Destination) (name : String) : Destination :=
  ⟨d.path.child name, d.text ++ "/" ++ name⟩

end Destination

end TripleStore
