import Appearance.Power

/-!
# Double-precision numbers

Every measure in a stylesheet is a double-precision number. A `Double` keeps its sign, mantissa
and binary exponent apart, so equality is decidable and arithmetic is exact on `Nat` :

* `Double.ofRatio` rounds a ratio of naturals to the nearest double, ties to the even mantissa;
* `Double.ofDecimal` and `Double.ofInt` are special cases of it;
* `Double.isIntegral` and `Double.absBelow` compare the exact value with integers.

A double is built by rounding a ratio of naturals once: `Double.exponentOf` finds the exponent at
which the mantissa has its full width, or the least one, and `Double.roundedQuotient` rounds the
scaled ratio to even. Ratios too large for the greatest exponent become infinite. No operation
works on bits and none goes through machine numbers, so definitions evaluate in the kernel and
statements about them are statements on naturals. Comparison and addition are not needed here: a
measure is read and printed, and what is asked of it is whether it is integral, small or positive.
-/

namespace Appearance

/-- A double-precision number. A finite one stands for `± mantissa · 2 ^ exponent`; numbers built
by `Double.ofRatio` have the largest mantissa below 2⁵³ that the least exponent allows, so
equal values have equal parts, the two zeros apart. -/
inductive Double where
  | nan
  | infinite (negative : Bool)
  | finite (negative : Bool) (mantissa : Nat) (exponent : Int)
  deriving DecidableEq, Repr, Inhabited

namespace Double

/-- The number of bits of a normal mantissa. -/
def precision : Nat := 53

/-- The exponent of the smallest positive double. -/
def leastExponent : Int := -1074

/-- The largest exponent a finite double has with a full mantissa. -/
def greatestExponent : Int := 971

/-- Zero of the given sign. -/
def zero (negative : Bool) : Double := .finite negative 0 leastExponent

instance : Zero Double := ⟨zero false⟩

/-- The integer nearest to `num / den`, ties to the even one. -/
def roundedQuotient (num den : Nat) : Nat :=
  let q := num / den
  let twice := 2 * (num % den)
  if twice < den then q
  else if den < twice then q + 1
  else q + q % 2

/-- The numerator and denominator of `num / den · 2 ^ (-e)`. -/
def scaleDown (num den : Nat) (e : Int) : Nat × Nat :=
  (num * pow2 (-e).toNat, den * pow2 e.toNat)

/-- The exponent at which a positive ratio has a mantissa of `precision` bits, or the least
exponent if that is larger. -/
def exponentOf (num den : Nat) : Int :=
  let guess : Int := (Nat.log2 num : Int) - (Nat.log2 den : Int) - 52
  let (n, d) := scaleDown num den guess
  let e := if n < d * pow2 52 then guess - 1 else guess
  max e leastExponent

/-- The double nearest to `num / den`, ties to the even mantissa; beyond the finite range,
infinity. -/
def ofRatio (negative : Bool) (num den : Nat) : Double :=
  if num = 0 then zero negative
  else
    let e := exponentOf num den
    let (n, d) := scaleDown num den e
    let q := roundedQuotient n d
    let (q, e) := if q = pow2 precision then (pow2 (precision - 1), e + 1) else (q, e)
    if greatestExponent < e then .infinite negative else .finite negative q e

/-- The double nearest to `± digits · 10 ^ exponent`. Exponents far outside the range of doubles
are cut off before the power of ten is formed. -/
def ofDecimal (negative : Bool) (digits : Nat) (exponent : Int) : Double :=
  let magnitude : Int := (Nat.toDigits 10 digits).length + exponent
  if digits = 0 ∨ magnitude < -330 then zero negative
  else if 330 < magnitude then .infinite negative
  else ofRatio negative (digits * pow10 exponent.toNat) (pow10 (-exponent).toNat)

/-- The double nearest to an integer. -/
def ofInt (n : Int) : Double := ofRatio (decide (n < 0)) n.natAbs 1

/-- Neither infinite nor a NaN. -/
def isFinite : Double → Bool
  | .finite .. => true
  | _ => false

/-- A finite number without a fractional part. -/
def isIntegral : Double → Bool
  | .finite _ m e => m % pow2 (-e).toNat == 0
  | _ => false

/-- The magnitude of a finite number as a ratio of naturals. -/
def magnitude (m : Nat) (e : Int) : Nat × Nat := (m * pow2 e.toNat, pow2 (-e).toNat)

/-- The absolute value is finite and below the given natural. -/
def absBelow (bound : Nat) : Double → Bool
  | .finite _ m e => let (n, d) := magnitude m e; decide (n < bound * d)
  | _ => false

/-- Greater than zero. -/
def isPositive : Double → Bool
  | .finite negative m _ => !negative && m != 0
  | .infinite negative => !negative
  | .nan => false

end Double

end Appearance
