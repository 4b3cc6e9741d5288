/-!
# Powers

The powers of the two bases in which numbers are written: digits are decimal, doubles and the
ranges of machine integers are binary.

Both are `Nat.pow` with a fixed base under names of their own. Proofs about numbers rewrite with
lemmas on `pow2` and `pow10` and leave large literals alone: the ranges of integers and the bounds
of mantissas are written with them, not as numerals.
-/

namespace Appearance

/-- A power of two. -/
def pow2 (n : Nat) : Nat := Nat.pow 2 n

/-- A power of ten. -/
def pow10 (n : Nat) : Nat := Nat.pow 10 n

end Appearance
