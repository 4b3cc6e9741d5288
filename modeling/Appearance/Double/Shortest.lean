import Appearance.Double.Basic

/-!
# The fewest digits that read back

`Double.shortest` gives the decimal with the fewest digits that rounds to a given finite double
and, of those, the one nearest to its value. A grid of `n` digits is the set of multiples of a
power of ten on which the value has `n` digits before the point. If a grid meets the interval of
reals that round to the double, then one of the two grid points beside the value lies in it, so it
is enough to test these two, for one digit, two digits and so on.

The interval of a double is kept as three numerators over one denominator (`RoundingInterval`),
with exact arithmetic on naturals and no rounding anywhere. `RoundingInterval.pick?` tests the two
candidates of one grid and `RoundingInterval.search` tries the grids from the coarsest on; with
seventeen digits one always lies in the interval, so the search needs no more steps. If both
candidates read back, the nearer one is taken, and a `TieRule` says what happens half way: plain
text rounds away from zero and documents round to even.
-/

namespace Appearance

/-- The decimal `digits · 10 ^ exponent`. -/
structure Decimal where
  digits : Nat
  exponent : Int
  deriving DecidableEq, Repr, Inhabited

/-- What becomes of a value that lies half way between two candidates. -/
inductive TieRule where
  | away
  | even
  deriving DecidableEq, Repr

namespace Decimal

/-- Moves the trailing zeros of the digits into the exponent. -/
def strip (fuel : Nat) (d : Decimal) : Decimal :=
  match fuel with
  | 0 => d
  | fuel + 1 =>
    if d.digits ≠ 0 ∧ d.digits % 10 = 0 then strip fuel ⟨d.digits / 10, d.exponent + 1⟩ else d

end Decimal

namespace Double

/-- The interval of reals that round to `m · 2 ^ e`, as numerators over one denominator. -/
structure RoundingInterval where
  lower : Nat
  value : Nat
  upper : Nat
  denominator : Nat
  /-- Whether the two ends round to the double as well. -/
  closed : Bool

/-- The lower end is half as far below the value where the mantissa is the least of its
exponent, since the doubles below it lie twice as close. -/
def roundingInterval (m : Nat) (e : Int) : RoundingInterval :=
  let below := if m = pow2 52 ∧ leastExponent < e then 1 else 2
  let scale := pow2 (e - 2).toNat
  ⟨(4 * m - below) * scale, 4 * m * scale, (4 * m + 2) * scale, pow2 (2 - e).toNat, m % 2 == 0⟩

/-- The number of digits before the point of a positive ratio; zero or negative for a value below
a tenth. -/
def wholeDigits (num den : Nat) : Int :=
  if den ≤ num then (Nat.toDigits 10 (num / den)).length
  else
    let l := (Nat.toDigits 10 (den / num)).length
    if den = num * pow10 (l - 1) then 2 - l else 1 - l

/-- The grid point `k · 10 ^ exponent` lies in the interval. -/
def RoundingInterval.contains (i : RoundingInterval) (k : Nat) (exponent : Int) : Bool :=
  let point := k * pow10 exponent.toNat * i.denominator
  let unit := pow10 (-exponent).toNat
  if i.closed then i.lower * unit ≤ point && point ≤ i.upper * unit
  else i.lower * unit < point && point < i.upper * unit

/-- The grid point of the given exponent that stands for the interval, if one does. -/
def RoundingInterval.pick? (i : RoundingInterval) (tie : TieRule) (exponent : Int) : Option Nat :=
  let num := i.value * pow10 (-exponent).toNat
  let den := i.denominator * pow10 exponent.toNat
  let k := num / den
  let twice := 2 * (num % den)
  let up :=
    if twice = den then
      match tie with
      | .away => true
      | .even => k % 2 == 1
    else decide (den < twice)
  match i.contains k exponent, i.contains (k + 1) exponent with
  | true, true => some (if up then k + 1 else k)
  | true, false => some k
  | false, true => some (k + 1)
  | false, false => none

/-- Tries the grids of `n` digits, `n + 1` digits and so on. -/
def RoundingInterval.search (i : RoundingInterval) (tie : TieRule) (whole : Int) :
    Nat → Nat → Decimal
  | 0, n =>
    ⟨i.value * pow10 (n - whole).toNat / (i.denominator * pow10 (whole - n).toNat), whole - n⟩
  | fuel + 1, n =>
    match i.pick? tie (whole - n) with
    | some k => ⟨k, whole - n⟩
    | none => search i tie whole fuel (n + 1)

/-- The decimal with the fewest digits that rounds to `m · 2 ^ e`. Seventeen digits always do. -/
def shortest (tie : TieRule) (m : Nat) (e : Int) : Decimal :=
  if m = 0 then ⟨0, 0⟩
  else
    let i := roundingInterval m e
    (i.search tie (wholeDigits i.value i.denominator) 17 1).strip 400

end Double

end Appearance
