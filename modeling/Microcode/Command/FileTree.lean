import Microcode.Command.Files

/-!
# Microcode.Command.FileTree

A model of the files that a command works on.

A file tree says what stands at every place.  A path leads to a place step by step, from the
working directory or, if it begins with a slash, from the root:

1. `.` stays, `..` goes up to the parent, and any other name goes down to what has that name;
2. every step but the last must lead to a directory;
3. a path that ends in a slash can name a directory only, so it is neither read nor written as a
   file;
4. a name has at most 255 bytes and a path at most 4095.

A read or write that fails leaves the tree as it was.
-/

namespace Microcode

/-! ## places -/

/-- A directory that paths start from or climb to; it is always there. -/
inductive Origin where
  | root
  /-- The directory so many levels above the working directory. -/
  | above (levels : Nat)
deriving DecidableEq, Repr

/-- A place in a file tree: the names on the way to it from an origin. -/
structure Place where
  origin : Origin := .above 0
  names : List String := []
deriving DecidableEq, Repr

/-- One step of a path. -/
inductive Step where
  | stay
  | up
  | down (name : String)
deriving DecidableEq, Repr

/-- The step that a name in a path stands for. -/
def Step.ofName : String → Step
  | "." => .stay
  | ".." => .up
  | name => .down name

namespace Place

/-- The place with the given name below a place. -/
def child (p : Place) (name : String) : Place := { p with names := p.names ++ [name] }

/-- The directory that a place is in; the root is in itself. -/
def parent (p : Place) : Place :=
  match p.origin, p.names with
  | .root, [] => p
  | .above levels, [] => { origin := .above (levels + 1) }
  | origin, names => ⟨origin, names.dropLast⟩

/-- The place that a step leads to. -/
def step (p : Place) : Step → Place
  | .stay => p
  | .up => p.parent
  | .down name => p.child name

end Place

/-! ## paths -/

/-- A path, taken apart. -/
structure Path where
  start : Place
  steps : List Step
  /-- Whether a slash stands at the end. -/
  slash : Bool
deriving DecidableEq, Repr

/-- Takes a path apart.  Several slashes count as one. -/
def Path.ofString (s : String) : Path :=
  let names := (s.toList.splitOn '/').filter (!·.isEmpty)
  { start := if s.toList.head? == some '/' then { origin := .root } else {}
    steps := names.map fun name => Step.ofName (String.ofList name)
    slash := s.toList.getLast? == some '/' }

/-- What a path leads to. -/
inductive Target where
  /-- A directory that the path names by a dot, or by no step at all. -/
  | directory
  /-- What has the given name in a directory; `slash` tells whether a slash follows it. -/
  | entry (parent : Place) (name : String) (slash : Bool)
deriving DecidableEq, Repr

def maxPathBytes : Nat := 4095

def maxNameBytes : Nat := 255

/-! ## trees -/

/-- What stands at a place of a file tree. -/
inductive FileNode where
  | file (bytes : ByteArray)
  | directory

/-- The files and directories that a command can reach. -/
structure FileTree where
  node? : Place → Option FileNode := fun _ => none

namespace FileTree

/-- What stands at a place. -/
def get? (t : FileTree) (place : Place) : Option FileNode :=
  if place.names.isEmpty then some .directory else t.node? place

/-- Puts something at a place, or clears it. -/
def set (t : FileTree) (place : Place) (node : Option FileNode) : FileTree :=
  ⟨fun other => if other = place then node else t.node? other⟩

/-- What has the given name in a directory. -/
def lookup (t : FileTree) (parent : Place) (name : String) : Except FileFault (Option FileNode) :=
  if maxNameBytes < name.utf8ByteSize then .error .nameTooLong else .ok (t.get? (parent.child name))

/-- Takes a step that must lead to a directory. -/
def enter (t : FileTree) (place : Place) (step : Step) : Except FileFault Place := do
  if let .down name := step then
    match ← t.lookup place name with
    | some .directory => pure ()
    | some (.file _) => throw .notDirectory
    | none => throw .notFound
  return place.step step

/-- What a path leads to. -/
def locate (t : FileTree) (path : String) : Except FileFault Target := do
  if path == "" then throw .notFound
  if maxPathBytes < path.utf8ByteSize then throw .nameTooLong
  let p := Path.ofString path
  let place ← p.steps.dropLast.foldlM t.enter p.start
  match p.steps.getLast? with
  | some (.down name) => return .entry place name p.slash
  | _ => return .directory

/-- The bytes of a file. -/
def readBytes (t : FileTree) (path : String) : Except FileFault ByteArray := do
  match ← t.locate path with
  | .directory => throw .isDirectory
  | .entry parent name slash =>
    match ← t.lookup parent name with
    | none => throw .notFound
    | some .directory => throw .isDirectory
    | some (.file bytes) => if slash then throw .notDirectory else return bytes

/-- The tree after a file has been written. -/
def writeBytes (t : FileTree) (path : String) (bytes : ByteArray) : Except FileFault FileTree := do
  match ← t.locate path with
  | .directory => throw .isDirectory
  | .entry _ _ true => throw .isDirectory
  | .entry parent name false =>
    match ← t.lookup parent name with
    | some .directory => throw .isDirectory
    | _ => return t.set (parent.child name) (some (.file bytes))

/-- The tree after a file has been removed, if it is there. -/
def removeFile (t : FileTree) (path : String) : FileTree :=
  match t.locate path with
  | .ok (.entry parent name false) =>
    match t.get? (parent.child name) with
    | some (.file _) => t.set (parent.child name) none
    | _ => t
  | _ => t

end FileTree

/-! ## commands -/

/-- Commands that run on a model of the files. -/
abbrev OnTree := StateM FileTree

instance : FileAccess OnTree where
  readBytes path := fun t => (t.readBytes path, t)
  writeBytes path bytes := fun t =>
    match t.writeBytes path bytes with
    | .ok t' => (.ok (), t')
    | .error fault => (.error fault, t)
  removeFile path := fun t => ((), t.removeFile path)

end Microcode
