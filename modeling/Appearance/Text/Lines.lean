/-!
# Lines

A line ends at a line feed, or at a carriage return with a line feed.

A text that ends with a line end has no empty line behind it, and the empty text has no line at
all. The open line is kept in reverse, so that the carriage return before a line feed is its first
character. Sources of stylesheets are expanded line by line with this function, and blocks of
declarations are taken apart with it before they are indented.
-/

namespace Appearance.Text

/-- The lines of a text without their ends, a line feed or a carriage return with one; `line` is
the open line, last character first. -/
def linesFrom (line : List Char) : List Char → List (List Char)
  | [] => if line.isEmpty then [] else [line.reverse]
  | '\n' :: cs =>
    let ended :=
      match line with
      | '\r' :: line => line
      | line => line
    ended.reverse :: linesFrom [] cs
  | c :: cs => linesFrom (c :: line) cs

/-- The lines of a text. An end of line closes a line and opens none. -/
def lines (cs : List Char) : List (List Char) := linesFrom [] cs

end Appearance.Text
