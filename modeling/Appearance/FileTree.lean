import Appearance.Path

/-!
# Trees of files

A `FileTree` holds the files and directories that a run sees, each under its place, the list of
names that leads to it from the working directory. `FileTree.locate` follows a path part by part,
so a part before the last must be a directory. `FileTree.writeIfChanged` leaves a file alone that
has the wanted content already.

The entries are a list without order in which each place occurs once; `FileTree.put` keeps it so.
The working directory, those above it and the root need no entry and cannot be removed. Paths are
not normalized before they are followed: `a/../b` asks for a directory `a`, as it does on a disk,
and a path that is empty leads nowhere.

Writing makes the missing directories on the way (`FileTree.walkMaking`) and then puts the file. No
operation looks at times or rights. A tree is therefore a value, and what a run does to the files
is a function from tree to tree, of which one can ask whether doing it twice is the same as doing
it once.
-/

namespace Appearance

/-- What stands at a place. -/
inductive FileEntry where
  | directory
  | file (content : String)
  deriving DecidableEq, Repr

/-- The names that lead to a place. Above the working directory they begin with `..`, and with `/`
on an absolute path. -/
abbrev Place := List String

/-- Files and directories by their places. -/
structure FileTree where
  entries : List (Place × FileEntry)
  deriving DecidableEq, Repr

/-- Why a path cannot be used. -/
inductive FileTrouble where
  /-- Nothing is there. -/
  | missing
  /-- A file stands where a directory is needed. -/
  | notDirectory
  /-- A directory stands where a file is needed. -/
  | isDirectory
  deriving DecidableEq, Repr

/-- The words of the system for a trouble, with its number. -/
def FileTrouble.message : FileTrouble → String
  | missing => "No such file or directory (os error 2)"
  | notDirectory => "Not a directory (os error 20)"
  | isDirectory => "Is a directory (os error 21)"

/-- What became of a file that was to be written. -/
inductive WriteOutcome where
  | written
  | unchanged
  deriving DecidableEq, Repr

namespace FileTree

/-- The tree of the working directory alone. -/
def empty : FileTree := ⟨[]⟩

/-- The working directory, those above it and the root are there without an entry. -/
def isRoot (place : Place) : Bool := place == ["/"] || place.all (· == "..")

/-- What stands at a place. -/
def find? (t : FileTree) (place : Place) : Option FileEntry :=
  if isRoot place then some .directory else t.entries.lookup place

/-- The tree with an entry at a place, in the stead of what was there. -/
def put (t : FileTree) (place : Place) (entry : FileEntry) : FileTree :=
  ⟨(place, entry) :: t.entries.filter (·.1 != place)⟩

/-- The place of the directory around a place. -/
def up (place : Place) : Place :=
  if place = ["/"] then place
  else if place.all (· == "..") then place ++ [".."]
  else place.dropLast

/-- The place that a part of a path leads to. -/
def follow (place : Place) (part : String) : Place :=
  if part = "." then place else if part = ".." then up place else place ++ [part]

/-- The place at which a path begins. -/
def startOf (path : String) : Place := if Path.isAbsolute path then ["/"] else []

/-- Follows the parts of a path; each must start from a directory. -/
def walk (t : FileTree) : Place → List String → Except FileTrouble Place
  | place, [] => .ok place
  | place, part :: rest =>
    match t.find? place with
    | some .directory => walk t (follow place part) rest
    | some (.file _) => .error .notDirectory
    | none => .error .missing

/-- The place of a path. Something may or may not stand there. -/
def locate (t : FileTree) (path : String) : Except FileTrouble Place :=
  if path = "" then .error .missing else t.walk (startOf path) (Path.parts path)

/-- The content of a file. -/
def read (t : FileTree) (path : String) : Except FileTrouble String :=
  match t.locate path with
  | .error e => .error e
  | .ok place =>
    match t.find? place with
    | some (.file content) => .ok content
    | some .directory => .error .isDirectory
    | none => .error .missing

/-- The content of a file, if it can be read. -/
def read? (t : FileTree) (path : String) : Option String := (t.read path).toOption

/-- Something stands at the path. -/
def has (t : FileTree) (path : String) : Bool :=
  match t.locate path with
  | .ok place => (t.find? place).isSome
  | .error _ => false

/-- Follows the parts of a path and makes the directories that are missing. -/
def walkMaking : FileTree → Place → List String → Except FileTrouble FileTree
  | t, _, [] => .ok t
  | t, place, part :: rest =>
    let next := follow place part
    match t.find? next with
    | some .directory => walkMaking t next rest
    | some (.file _) => .error .notDirectory
    | none => walkMaking (t.put next .directory) next rest

/-- Makes a directory and those around it. -/
def makeDirectories (t : FileTree) (path : String) : Except FileTrouble FileTree :=
  t.walkMaking (startOf path) (Path.parts path)

/-- Writes a file into a directory that is there. -/
def write (t : FileTree) (path content : String) : Except FileTrouble FileTree :=
  match t.locate path with
  | .error e => .error e
  | .ok place =>
    if t.find? place = some .directory then .error .isDirectory
    else .ok (t.put place (.file content))

/-- Writes a file and makes the directories around it. -/
def writeMaking (t : FileTree) (path content : String) : Except FileTrouble FileTree :=
  match t.makeDirectories ((Path.parent? path).getD "") with
  | .error e => .error e
  | .ok t => t.write path content

/-- Writes a file unless it has exactly this content. -/
def writeIfChanged (t : FileTree) (path content : String) :
    Except FileTrouble (WriteOutcome × FileTree) :=
  match t.read path with
  | .ok present =>
    if present = content then .ok (.unchanged, t)
    else (t.writeMaking path content).map fun t => (.written, t)
  | .error .missing => (t.writeMaking path content).map fun t => (.written, t)
  | .error trouble => .error trouble

/-- Removes what stands at a place and below it. -/
def remove (t : FileTree) (place : Place) : FileTree :=
  ⟨t.entries.filter fun e => !place.isPrefixOf e.1⟩

/-- The number of files and directories. -/
def size (t : FileTree) : Nat := t.entries.length

/-- The places of all files. -/
def files (t : FileTree) : List Place :=
  t.entries.filterMap fun e =>
    match e.2 with
    | .file _ => some e.1
    | .directory => none

end FileTree

end Appearance
