/-!
# The magnitude of a double

A finite double is, up to its sign, a natural number times a power of two.  This module takes a
double apart into that product and rounds the product to a natural number: up, as an estimated
time is rounded, and to the nearest number, as a speed is shown.
-/

namespace TransferQueue

/-- The number `mantissa * 2 ^ exponent`, as the bits of a double give it. -/
structure Magnitude where
  /-- The natural number that is scaled. -/
  mantissa : Nat
  /-- The power of two that scales it. -/
  exponent : Int
  /-- Whether the gap to the double below is half the gap to the double above. -/
  narrowBelow : Bool
deriving DecidableEq, Repr

namespace Magnitude

/-- The magnitude of a finite double; the infinities and what is not a number have none. -/
def ofFloat? (x : Float) : Option Magnitude :=
  let bits : Nat := x.toBits.toNat
  let scale : Nat := bits / Nat.pow 2 52 % Nat.pow 2 11
  let fraction : Nat := bits % Nat.pow 2 52
  if scale = 2047 then none
  else if scale = 0 then some ⟨fraction, -1074, false⟩
  else some ⟨Nat.pow 2 52 + fraction, (scale : Int) - 1075, fraction == 0 && scale > 1⟩

/-- The least natural number that is not below the magnitude. -/
def ceil (x : Magnitude) : Nat :=
  let down := Nat.pow 2 (-x.exponent).toNat
  (x.mantissa * Nat.pow 2 x.exponent.toNat + (down - 1)) / down

/-- The nearest natural number, the greater one if two are equally near. -/
def round (x : Magnitude) : Nat :=
  let down := Nat.pow 2 (-x.exponent).toNat
  (2 * (x.mantissa * Nat.pow 2 x.exponent.toNat) + down) / (2 * down)

end Magnitude

/-- Whether the sign bit of a double is set, as it is in negative zero too. -/
def isSigned (x : Float) : Bool := x.toBits.toNat / Nat.pow 2 63 % 2 == 1

end TransferQueue
