import TransferQueue.Digit

/-!
# Reading a double from decimal digits

A decimal literal is read in two steps.  First as many of its digits as fit in sixty-four bits
form a natural number: a digit of the whole part that no longer fits still counts as a factor of
ten, one of the fraction is passed over.  Then this number, as a double, is multiplied by or
divided by the power of ten that is left.  Each step rounds once, so the result need not be the
double nearest to the literal.
-/

namespace TransferQueue

namespace Reading

/-- The least number that does not fit in sixty-four bits. -/
def bound : Nat := UInt64.size

/-- Append the digits of a whole part to the number `n` as long as the result fits.  The second
component counts the digits that are left over. -/
def appendWhole (n : Nat) : List Digit → Nat × Nat
  | [] => (n, 0)
  | d :: ds => if 10 * n + d.val < bound then appendWhole (10 * n + d.val) ds else (n, ds.length + 1)

/-- Append the digits of a fraction to the number `n` as long as the result fits.  The second
component counts the digits that were appended. -/
def appendFraction (n : Nat) : List Digit → Nat × Nat
  | [] => (n, 0)
  | d :: ds =>
    if 10 * n + d.val < bound then
      let (m, count) := appendFraction (10 * n + d.val) ds
      (m, count + 1)
    else (n, 0)

/-- The double nearest to a power of ten. -/
def powerOfTen (k : Nat) : Float := Float.ofScientific 1 false k

/-- A double times a power of ten, in steps within the range of doubles.  There is no result when
it would be infinite. -/
def scale? (x : Float) (exponent : Int) : Option Float :=
  if exponent.natAbs ≤ 308 then
    if 0 ≤ exponent then
      let y := x * powerOfTen exponent.natAbs
      if y.isInf then none else some y
    else some (x / powerOfTen exponent.natAbs)
  else if x == 0 then some x
  else if 0 ≤ exponent then none
  else scale? (x / powerOfTen 308) (exponent + 308)
termination_by exponent.natAbs
decreasing_by omega

/-- The double that stands for the digits of a whole part and a fraction times a power of ten,
unless it would be infinite. -/
def float? (whole fraction : List Digit) (exponent : Int) : Option Float :=
  let (n, left) := appendWhole 0 whole
  let (n, taken) := appendFraction n fraction
  scale? (UInt64.ofNat n).toFloat (exponent + left - taken)

end Reading

end TransferQueue
