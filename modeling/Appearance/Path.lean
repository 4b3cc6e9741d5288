import Appearance.Text.Split

/-!
# Paths

A path is its text, as it was given and as messages show it. Parts are divided by `/`; an empty
part counts for nothing, nor does a single point that is not at the beginning.

The functions take paths apart by text alone and ask no disk. `Path.parent?` and `Path.fileName?`
first drop separators and single points at the end, so `a/b/` and `a/b/.` have the name `b`.
`Path.fileStem` cuts a name before its last point, unless that is its first character; the name of
a stylesheet is the stem of its file. `Path.parts` keeps what `FileTree.walk` needs: a separator at
the end asks for a directory, and so it becomes a part of its own. `Path.dropTrailing` has as many
steps as there are characters and never runs out of them.
-/

namespace Appearance.Path

open Appearance.Text

/-- The path begins at the root. -/
def isAbsolute (path : String) : Bool := path.toList.head? == some '/'

/-- The path of something that lies below `dir`; an absolute path stays what it is. -/
def join (dir path : String) : String :=
  if isAbsolute path || dir.isEmpty then path
  else if dir.toList.getLast? == some '/' then dir ++ path
  else dir ++ "/" ++ path

/-- A separator, or a point that stands between separators. -/
def dropTrailing : Nat → List Char → List Char
  | 0, cs => cs
  | fuel + 1, cs =>
    match cs.reverse with
    | '/' :: rest => if rest.isEmpty then cs else dropTrailing fuel rest.reverse
    | '.' :: '/' :: rest => dropTrailing fuel ('/' :: rest).reverse
    | _ => cs

/-- A path without separators and points at its end. -/
def trimmed (path : String) : List Char := dropTrailing path.length path.toList

/-- The last part of a path that has no separator at its end. -/
def lastPart (cs : List Char) : List Char := (cs.reverse.takeWhile (· != '/')).reverse

/-- The path of the directory that something lies in. The root and the empty path have none. -/
def parent? (path : String) : Option String :=
  let cs := trimmed path
  if cs.isEmpty || cs == ['/'] then none
  else
    let dir := cs.take (cs.length - (lastPart cs).length)
    some (String.ofList (dropTrailing path.length dir))

/-- The name of the last part, unless that leads to a directory by points. -/
def fileName? (path : String) : Option String :=
  let name := lastPart (trimmed path)
  if name.isEmpty || name == ['.'] || name == ['.', '.'] then none else some (String.ofList name)

/-- A name without its extension. A point at the beginning belongs to the name. -/
def stem (name : List Char) : List Char :=
  match (name.reverse.dropWhile (· != '.')).tail with
  | [] => name
  | rest => rest.reverse

/-- The name of a file without its extension. -/
def fileStem (path : String) : String :=
  match fileName? path with
  | some name => String.ofList (stem name.toList)
  | none => ""

/-- The parts of a path that lead from directory to directory. A separator at the end asks for a
directory, as a point does. -/
def parts (path : String) : List String :=
  let parts := (splitAtChars (· == '/') path.toList).map String.ofList
  let inner := parts.filter (· != "")
  if 1 < parts.length && parts.getLast? == some "" then inner ++ ["."] else inner

end Appearance.Path
