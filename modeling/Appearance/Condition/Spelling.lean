import Appearance.Condition.Basic
import Appearance.Text.Blank
import Appearance.Text.Case

/-!
# The normalized spelling of a condition

Letter case, quotes and spacing of a condition carry no meaning. `Condition.normalize` removes
quotes, lowers the case, writes each comparator as one symbol and leaves single spaces between
words, none beside a symbol.

The four steps are functions on lists of characters, in this order: quotes are dropped, letters
lowered, comparators of two characters folded to one symbol, and the words joined. Comparators are
folded before white space is looked at, so a comparator whose two characters have a blank between
them is not folded; joining brings them together afterwards, and only a second pass would fold
them. Joining puts a space between two words unless a symbol stands on either side of it.
-/

namespace Appearance.Condition

open Appearance.Text

/-- Writes the comparators of two characters as one symbol. -/
def foldComparators : List Char → List Char
  | '!' :: '=' :: cs => '≠' :: foldComparators cs
  | '<' :: '=' :: cs => '≤' :: foldComparators cs
  | '>' :: '=' :: cs => '≥' :: foldComparators cs
  | '=' :: '=' :: cs => '=' :: foldComparators cs
  | c :: cs => c :: foldComparators cs
  | [] => []

/-- A character that no condition needs. -/
def isQuote (c : Char) : Bool := c == '"' || c == '\''

/-- The last character satisfies `p`. -/
def endsWith (p : Char → Bool) (cs : List Char) : Bool := cs.getLast?.any p

/-- The first character satisfies `p`. -/
def startsWith (p : Char → Bool) (cs : List Char) : Bool := cs.head?.any p

/-- What stands between two words: nothing beside a comparator, else a space. -/
def spacing (before after : List Char) : List Char :=
  if endsWith Comparator.isSymbol before || startsWith Comparator.isSymbol after then [] else [' ']

/-- The words with their spacing. -/
def joinWords : List (List Char) → List Char
  | [] => []
  | [w] => w
  | w :: v :: ws => w ++ spacing w v ++ joinWords (v :: ws)

/-- The normalized spelling of a condition. -/
def normalize (cs : List Char) : List Char :=
  joinWords (wordsChars (foldComparators (lowercase (cs.filter fun c => !isQuote c))))

end Appearance.Condition
