import Appearance.Condition.Spelling
import Appearance.Double.Reading
import Appearance.Text.Split

/-!
# Reading conditions

`Condition.parse` normalizes a text, splits it at every occurrence of the letters `and`, and reads
each part as an expression. A part that contains the word `default` always holds.

The text is normalized twice, as a whole before it is split and each part again, for a part can
begin or end with a space. A part is split at every symbol of a comparator, so a part with two
comparators has three pieces and is refused with the same fault as one without any. The left side
must be a `Metric`; the right side is a number or one of the words of `Term.ofToken?`. A fault
names the part that could not be read.

`Condition.order` is the order of the branches of a conditional value: fallbacks last, then by
length, then alphabetically. It is a lawful order on spellings, and two conditions of one spelling
are one key.
-/

namespace Appearance

open Appearance.Text

namespace Condition

/-- What can be wrong with an expression. -/
inductive Fault where
  /-- There is not one comparator between two terms. -/
  | notOneComparator
  | unknownMetric (term : String)
  | unknownTerm (term : String)
  deriving DecidableEq, Repr

/-- An expression that cannot be read. -/
structure Error where
  expression : String
  fault : Fault
  deriving DecidableEq, Repr

def Fault.message : Fault → String
  | notOneComparator => "expected exactly one operator between two terms"
  | unknownMetric term => s!"unknown left-hand term `{term}`"
  | unknownTerm term => s!"unknown right-hand term `{term}`"

def Error.message (e : Error) : String :=
  "malformed condition `" ++ e.expression ++ "`: " ++ e.fault.message

/-- The word that marks the fallback. -/
def fallbackWord : List Char := "default".toList

/-- The letters that join expressions. -/
def conjunction : List Char := "and".toList

/-- A number can begin with this character. -/
def beginsNumber (c : Char) : Bool := c.isDigit || c == '-' || c == '+' || c == '.'

/-- A finite number. Words for infinity are refused, since a number begins with a digit, a sign or
a point. -/
def constant? (token : String) : Option Double :=
  if startsWith beginsNumber token.toList then
    (Double.read? token).filter Double.isFinite
  else none

end Condition

/-- The term that a token stands for. -/
def Term.ofToken? (token : String) : Option Term :=
  match Condition.constant? token with
  | some value => some (.constant value)
  | none =>
    match token with
    | "regular" => some regular
    | "compact" => some compact
    | "fixedwidth" => some fixedWidth
    | "fixedheight" => some fixedHeight
    | "width" => some width
    | "height" => some height
    | "pad" => some pad
    | "phone" => some phone
    | other => (ContentSize.ofToken? other).map contentSize

namespace Expression

open Condition

/-- The comparison of two tokens. -/
def ofTokens (raw : String) (comparator : Comparator) (left right : String) :
    Except Fault Expression :=
  match Metric.ofToken? left with
  | none => .error (.unknownMetric left)
  | some metric =>
    match Term.ofToken? right with
    | none => .error (.unknownTerm right)
    | some term => .ok (.comparison raw metric comparator term)

/-- Reads a normalized comparison. -/
def ofNormalized (cs : List Char) : Except Fault Expression :=
  match splitAtChars Comparator.isSymbol cs, cs.findSome? Comparator.ofSymbol? with
  | [left, right], some comparator =>
    ofTokens (String.ofList cs) comparator (String.ofList (trimChars left))
      (String.ofList (trimChars right))
  | _, _ => .error .notOneComparator

/-- Reads one part of a conjunction. -/
def parse (part : List Char) : Except Condition.Error Expression :=
  let cs := normalize part
  if containsText fallbackWord cs then .ok (.always (String.ofList cs))
  else
    match ofNormalized cs with
    | .ok e => .ok e
    | .error fault => .error ⟨String.ofList (trimChars part), fault⟩

end Expression

namespace Condition

/-- Reads a condition from its characters. -/
def parseChars (cs : List Char) : Except Error Condition :=
  let normalized := normalize cs
  match (splitAtText conjunction normalized).mapM Expression.parse with
  | .ok expressions => .ok ⟨String.ofList normalized, expressions⟩
  | .error e => .error e

/-- Reads a condition. -/
def parse (s : String) : Except Error Condition := parseChars s.toList

/-- The condition is the fallback branch. -/
def isDefault (c : Condition) : Bool := containsText fallbackWord c.raw.toList

/-- The order in which branches are tested: the fallback last, else shorter spellings first, and
spellings of one length in alphabetical order. -/
def order (a b : Condition) : Ordering :=
  (compare a.isDefault b.isDefault).then
    ((compare a.raw.length b.raw.length).then (compare a.raw b.raw))

/-- Two conditions with one normalized spelling are the same key. -/
def sameKey (a b : Condition) : Bool := a.raw == b.raw

end Condition

end Appearance
