import Appearance.Code.Literal

/-!
# Blocks of code

Generated code is a list of lines. `Code.block` puts lines between braces, one tab deeper, so the
depth of a line is the number of blocks around it.

Code is kept as lines and joined to a text only when a file is made (`Code.unlines`). A block
indents its body when it is built, so nested blocks add their tabs from the inside outwards and no
function has to know how deep it stands; an empty line gets no tab. Braces are counted on lines as
well: `Code.block` adds a line that opens and one that closes, and `Code.braced` keeps both on one
line, so what is built of these two is balanced.
-/

namespace Appearance.Code

/-- Lines one tab deeper. An empty line stays empty. -/
def indent (lines : List String) : List String :=
  lines.map fun line => if line.isEmpty then line else "\t" ++ line

/-- The line that opens a block. -/
def opening (head : String) : String := head ++ " \x7b"

/-- The line that closes a block. -/
def closing : String := "\x7d"

/-- Lines between braces. -/
def block (head : String) (body : List String) : List String :=
  opening head :: indent body ++ [closing]

/-- Code between braces on one line. -/
def braced (body : String) : String := "\x7b " ++ body ++ " \x7d"

/-- A block on one line. -/
def inlineBlock (head body : String) : String := head ++ " " ++ braced body

/-- Words that stand before a declaration if they apply. -/
def mark (applies : Bool) (words : String) : String := if applies then words ++ " " else ""

/-- A type after a colon, if there is one. -/
def inherits : Option String → String
  | some type => ": " ++ type
  | none => ""

/-- Lines with an empty line behind it. -/
def paragraph (lines : List String) : List String := lines ++ [""]

end Appearance.Code
