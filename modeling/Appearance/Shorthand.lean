import Appearance.Color
import Appearance.Text.Blank
import Appearance.Text.Lines
import Appearance.Text.Split

/-!
# Shorthands of a stylesheet source

A source is expanded line by line before it is read as YAML. Prefixes of keys (`AN_`, `AP_` and
`@`) become their markers, and a bare color such as `#0078D4`, which would be a comment, becomes
`color(0078D4)`. All other text is left as it is.

The expansion works on characters, before any structure is known, so it has to guess: the key of a
line ends at the first colon outside quotes that ends the line or precedes a space, and what stands
behind it is the value. Markers are replaced wherever they occur in a key, one after the other in
the order of `Shorthand.keyMarkers`, and a later one is also found in what an earlier one left. A
value is rewritten only if it is a bare color as a whole, up to a comment. Each line is expanded on
its own (`Shorthand.expandLine`), so properties of the expansion are proved for one line and
carried over the `flatMap` of `Shorthand.expandChars`.
-/

namespace Appearance.Shorthand

open Appearance.Text

/-- A quote of either kind. -/
def isQuote (c : Char) : Bool := c == '"' || c == '\''

/-- Looks for the colon that ends a key; `quote` is the quote that is open and `before` what has
been passed, last character first. A comment ends the search. -/
def splitKeyFrom (quote : Option Char) (before : List Char) :
    List Char → Option (List Char × List Char)
  | [] => none
  | c :: cs =>
    match quote with
    | some q => splitKeyFrom (if c = q then none else some q) (c :: before) cs
    | none =>
      if isQuote c then splitKeyFrom (some c) (c :: before) cs
      else if c = ':' && (cs.isEmpty || cs.head? == some ' ') then some (before.reverse, cs)
      else if c = '#' && before.head? == some ' ' then none
      else splitKeyFrom none (c :: before) cs

/-- The key and what follows its colon: the first colon outside quotes that ends the line or
precedes a space. -/
def splitKey? (item : List Char) : Option (List Char × List Char) := splitKeyFrom none [] item

/-- The prefixes of keys and their markers, in the order in which they are replaced. -/
def keyMarkers : List (String × String) :=
  [("AN_", "__animator "), ("AP_", "__appearance_proxy"), ("@", "__")]

/-- A key with its prefixes written as markers. A later prefix is also found where an earlier
marker completes it. -/
def expandKey (key : List Char) : List Char :=
  keyMarkers.foldl (fun key m => replaceText m.1.toList m.2.toList key) key

/-- The numbers of digits that a bare color can have. -/
def colorLengths : List Nat := [3, 5, 6, 8]

/-- A digit of a color, in either letter case. -/
def isHexDigit (c : Char) : Bool := (Color.hexDigit? c).isSome

/-- A value with a bare color written as a call. A comment may follow the color after a space. -/
def expandValue (value : List Char) : List Char :=
  match value.dropWhile isBlank with
  | '#' :: rest =>
    let hex := rest.takeWhile isHexDigit
    let tail := rest.dropWhile isHexDigit
    if colorLengths.contains hex.length && (tail.isEmpty || tail.head? == some ' ') then
      value.takeWhile isBlank ++ "color(".toList ++ hex ++ ')' :: tail
    else value
  | _ => value

/-- Expands what follows the indentation and the dash of a line. -/
def expandItem (item : List Char) : List Char :=
  match splitKey? item with
  | some (key, value) => expandKey key ++ ':' :: expandValue value
  | none => expandValue item

/-- Expands a line. Blank lines and comments stay. -/
def expandLine (line : List Char) : List Char :=
  let indent := line.takeWhile isBlank
  match line.dropWhile isBlank with
  | [] => line
  | '#' :: _ => line
  | '-' :: ' ' :: item => indent ++ '-' :: ' ' :: expandItem item
  | item => indent ++ expandItem item

/-- Expands a source; every line ends with a line feed afterwards. -/
def expandChars (source : List Char) : List Char :=
  (lines source).flatMap fun line => expandLine line ++ ['\n']

/-- Expands a source. -/
def expand (source : String) : String := String.ofList (expandChars source.toList)

end Appearance.Shorthand
