import Appearance.Double.Reading
import Appearance.Text.Blank

/-!
# Dimensions

A dimension is a number with an optional unit: `12`, `12pt`, `8 dp`, `0.5f`. The unit carries no
meaning of its own; it only says that a measure is meant. `Dimension.parse?` accepts exactly the
texts whose body is numeric (`isNumeric`), so words for infinity or exponents are refused.

A text is read in three steps, each a function on lists of characters: quotes at its ends and white
space are taken off (`Dimension.unquoted`), then one unit with the white space before it
(`Dimension.dropUnit`), and what is left must be an optional sign with digits and at most one point
(`Dimension.isNumeric`). Only then is it read as a double. Of the units the longer ones are tried
first, and only one is taken off, so `12ptf` is no dimension. Sizes of fonts, numbers of calls and
control points of curves are all read here.
-/

namespace Appearance.Dimension

open Appearance.Text

/-- Removes a suffix, if the text has it. -/
def dropSuffix? (unit cs : List Char) : Option (List Char) :=
  if unit.isSuffixOf cs then some (cs.take (cs.length - unit.length)) else none

/-- Removes one unit and the white space before it. -/
def dropUnit (cs : List Char) : List Char :=
  trimEndChars <|
    (dropSuffix? ['p', 't'] cs <|> dropSuffix? ['d', 'p'] cs <|> dropSuffix? ['f'] cs).getD cs

/-- Digits with at most one point, at least one digit among them; `digit` and `point` say what
has been seen. -/
def numericFrom (digit point : Bool) : List Char → Bool
  | [] => digit
  | c :: cs =>
    if c.isDigit then numericFrom true point cs
    else if c = '.' && !point then numericFrom digit true cs
    else false

/-- An optional sign and digits with at most one point. -/
def isNumeric (cs : List Char) : Bool := numericFrom false false (splitSign cs).2

/-- A quote of either kind. -/
def isQuote (c : Char) : Bool := c == '"' || c == '\''

/-- The text without white space, the quotes at its ends, and the white space inside these. -/
def unquoted (cs : List Char) : List Char :=
  trimChars (dropEndWhile isQuote ((trimChars cs).dropWhile isQuote))

/-- The number that a dimension stands for. -/
def parseChars? (cs : List Char) : Option Double :=
  let body := dropUnit (unquoted cs)
  if isNumeric body then Double.read? (String.ofList body) else none

/-- The number that a dimension stands for. -/
def parse? (s : String) : Option Double := parseChars? s.toList

/-- A unit stands at the end of the text. -/
def hasUnit (s : String) : Bool :=
  let cs := trimChars s.toList
  (dropUnit cs).length != cs.length

end Appearance.Dimension
