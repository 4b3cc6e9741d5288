import Appearance.Double.Basic

/-!
# Reading doubles

`Double.read?` reads a decimal text: an optional sign, digits with at most one point among or
around them, and an optional exponent. The words for infinity and for a NaN are read in any letter
case.

All digits, those before and those behind the point, are read as one natural, and the point only
lowers the exponent; `Double.ofDecimal` then rounds once. Whether a text may have an exponent, a
sign or one of the words is not decided here: dimensions and conditions refuse them before they
read, and plain scalars of a document refuse some of them as well. `digitsValue` counts every
character as a digit, so it is applied to digits only.
-/

namespace Appearance

/-- The value of a list of decimal digits. -/
def digitsValue (ds : List Char) : Nat :=
  ds.foldl (fun n c => 10 * n + (c.toNat - '0'.toNat)) 0

/-- Splits off the leading decimal digits. -/
def spanDigits (cs : List Char) : List Char × List Char :=
  (cs.takeWhile Char.isDigit, cs.dropWhile Char.isDigit)

/-- Splits off an optional sign; true for a minus. -/
def splitSign : List Char → Bool × List Char
  | '-' :: cs => (true, cs)
  | '+' :: cs => (false, cs)
  | cs => (false, cs)

namespace Double

/-- The exponent part after the digits: nothing, or a letter `e` and a signed number. -/
def readExponent? : List Char → Option Int
  | [] => some 0
  | c :: cs =>
    if c = 'e' ∨ c = 'E' then
      let (negative, ds) := splitSign cs
      if ds.isEmpty || !ds.all Char.isDigit then none
      else some (if negative then -(digitsValue ds : Int) else digitsValue ds)
    else none

/-- An unsigned number in decimal notation. -/
def readUnsigned? (negative : Bool) (cs : List Char) : Option Double :=
  let (whole, rest) := spanDigits cs
  let (fraction, rest) :=
    match rest with
    | '.' :: rest => spanDigits rest
    | _ => ([], rest)
  if whole.isEmpty && fraction.isEmpty then none
  else
    (readExponent? rest).map fun e =>
      ofDecimal negative (digitsValue (whole ++ fraction)) (e - fraction.length)

/-- Reads a number, or one of the words `inf`, `infinity` and `nan`. -/
def read? (text : String) : Option Double :=
  let (negative, cs) := splitSign text.toList
  let word := String.ofList (cs.map Char.toLower)
  if word = "inf" ∨ word = "infinity" then some (.infinite negative)
  else if word = "nan" then some .nan
  else readUnsigned? negative cs

end Double

end Appearance
