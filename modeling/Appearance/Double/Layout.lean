import Appearance.Double.Shortest

/-!
# Laying out decimals

`Decimal.positional` writes a decimal without an exponent. `Double.toText` is the plain text of a
double: the fewest digits that read back, positional, without a fractional part where the value
has none.

A `Decimal` is digits and an exponent. `Decimal.point` says where the point stands relative to the
first digit, and `Decimal.positional` pads with zeros on the side that needs them. The text that a
program prints for a double is then the shortest decimal laid out in this way, with a sign in
front; infinite values and the NaN have words. Numbers in documents have a layout of their own in
`Yaml.Node.Basic`, over the same digits.
-/

namespace Appearance

/-- The decimal digits of a natural number. -/
def natText (n : Nat) : String := String.ofList (Nat.toDigits 10 n)

/-- The decimal digits of an integer, after its sign if it is negative. -/
def intText (n : Int) : String :=
  if n < 0 then "-" ++ natText n.natAbs else natText n.natAbs

namespace Decimal

/-- The characters of the digits. -/
def figures (d : Decimal) : List Char := Nat.toDigits 10 d.digits

/-- How many digits stand before the point. -/
def point (d : Decimal) : Int := d.figures.length + d.exponent

/-- The decimal without an exponent; no point where nothing follows it. -/
def positional (d : Decimal) : List Char :=
  let ds := d.figures
  if d.digits = 0 then ['0']
  else if 0 ≤ d.exponent then ds ++ List.replicate d.exponent.toNat '0'
  else if 0 < d.point then
    ds.take d.point.toNat ++ '.' :: ds.drop d.point.toNat
  else '0' :: '.' :: List.replicate (-d.point).toNat '0' ++ ds

end Decimal

namespace Double

/-- The sign of a negative number, the negative zero included. -/
def signText (negative : Bool) : String := if negative then "-" else ""

/-- The plain text of a double; of two shortest texts equally near, the larger one. -/
def toText : Double → String
  | .nan => "NaN"
  | .infinite negative => signText negative ++ "inf"
  | .finite negative m e =>
    signText negative ++ String.ofList (shortest .away m e).positional

end Double

end Appearance
