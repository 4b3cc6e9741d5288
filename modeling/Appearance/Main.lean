import Appearance.CommandLine

/-!
# The program

The outer layer: it fetches the files that a run looks at from the disk into a tree, runs on the
tree, and writes back what the run changed.

What a run needs is not known beforehand, for a stylesheet names the files that it imports and
those name others. `Program.gather` therefore asks `Invocation.looksAt` for the paths, fetches them
and asks again with the larger tree, until nothing new is asked for. After the run each path that
was looked at is compared with the tree before, and only what changed goes to the disk. All
decisions are made in `Invocation.run`; this module has no other logic than fetching and storing,
and it is the only one in `IO`.
-/

namespace Appearance.Program

/-- The directories on the way to a path and the path itself, from the outside inwards. -/
def steps (path : String) : List String :=
  let parts := Path.parts path
  let start := if Path.isAbsolute path then "/" else ""
  (List.range parts.length).map fun n => start ++ "/".intercalate (parts.take (n + 1))

/-- Something stands at a path on the disk. -/
def isThere (path : String) : IO Bool := do
  match ← (IO.FS.realPath path).toBaseIO with
  | .ok _ => return true
  | .error _ => return false

/-- The tree with what stands at a path on the disk. -/
def fetchStep (tree : FileTree) (path : String) : IO FileTree := do
  match ← (IO.FS.readFile path).toBaseIO with
  | .ok content => return (tree.writeMaking path content).toOption.getD tree
  | .error _ =>
    if ← isThere path then return (tree.makeDirectories path).toOption.getD tree else return tree

/-- The tree with what stands on the way to a path on the disk. -/
def fetch (tree : FileTree) (path : String) : IO FileTree :=
  (steps path).foldlM (fun tree step => if tree.has step then pure tree else fetchStep tree step)
    tree

/-- Fetches what a run looks at until it looks at nothing new. -/
partial def gather (invocation : Invocation) (fetched : List String) (tree : FileTree) :
    IO FileTree := do
  let wanted := (invocation.looksAt tree).filter (!fetched.contains ·)
  if wanted.isEmpty then return tree
  else gather invocation (fetched ++ wanted) (← wanted.foldlM fetch tree)

/-- Writes a file to the disk if a run changed it. -/
def store (before after : FileTree) (path : String) : IO Unit := do
  match after.read? path with
  | some content =>
    if before.read? path != some content then
      match Path.parent? path with
      | some "" => pure ()
      | some dir => IO.FS.createDirAll dir
      | none => pure ()
      IO.FS.writeFile path content
  | none => pure ()

/-- Prints a report and gives its code. -/
def print (report : Report) : IO UInt32 := do
  IO.print report.output
  IO.eprint report.errors
  return report.code.toUInt32

/-- Runs on the files of the disk. -/
def run (invocation : Invocation) : IO UInt32 := do
  let before ← gather invocation [] .empty
  let (after, report) := invocation.run before
  (invocation.looksAt before).forM (store before after)
  print report

end Appearance.Program

/-- The program: builds what its arguments ask for and ends with the exit code. -/
def main (arguments : List String) : IO UInt32 :=
  match Appearance.Invocation.parse arguments with
  | .ok invocation => Appearance.Program.run invocation
  | .error e => Appearance.Program.print (Appearance.Invocation.usageReport e)
