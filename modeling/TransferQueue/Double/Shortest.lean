import TransferQueue.Double.Magnitude

/-!
# The shortest decimal of a double

The reals that round to a double form an interval around it, whose ends belong to it exactly when
the mantissa is even.  The shortest decimal is the one with the fewest digits in this interval; of
several with equally few digits it is the one nearest to the double, and of two equally near ones
the even one.  The search tries one digit, two digits and so on; on each grid only the two
neighbours of the double can be the nearest hit.
-/

namespace TransferQueue

/-- The decimal number `digits * 10 ^ exponent`. -/
structure Scaled where
  /-- The natural number that is scaled. -/
  digits : Nat
  /-- The power of ten that scales it. -/
  exponent : Int
deriving DecidableEq, Repr

namespace Scaled

/-- How `a * 10 ^ i` compares with `n * 2 ^ j`. -/
def compareBinary (a : Nat) (i : Int) (n : Nat) (j : Int) : Ordering :=
  compare (a * Nat.pow 10 i.toNat * Nat.pow 2 (-j).toNat)
    (n * Nat.pow 2 j.toNat * Nat.pow 10 (-i).toNat)

/-- Whether a decimal number lies among the reals that round to the magnitude `x`. -/
def roundsTo (d : Scaled) (x : Magnitude) : Bool :=
  let low := 4 * x.mantissa - (if x.narrowBelow then 1 else 2)
  let high := 4 * x.mantissa + 2
  let atLow := compareBinary d.digits d.exponent low (x.exponent - 2)
  let atHigh := compareBinary d.digits d.exponent high (x.exponent - 2)
  let even := x.mantissa % 2 == 0
  (atLow == .gt || (even && atLow == .eq)) && (atHigh == .lt || (even && atHigh == .eq))

/-- Without the zeros at the end of its digits, a number is the same number. -/
def dropZeros (digits : Nat) (exponent : Int) : Scaled :=
  if digits ≠ 0 ∧ digits % 10 = 0 then dropZeros (digits / 10) (exponent + 1)
  else ⟨digits, exponent⟩
termination_by digits

/-- The least `k` from `start` on, and below `start + fuel`, with `x < 10 ^ k`. -/
def leadingPower (x : Magnitude) : Nat → Int → Int
  | 0, k => k
  | fuel + 1, k =>
    if compareBinary 1 k x.mantissa x.exponent == .gt then k else leadingPower x fuel (k + 1)

/-- The best decimal of the grid `10 ^ exponent` for `x`, if one of the grid rounds to `x`. -/
def onGrid? (x : Magnitude) (exponent : Int) : Option Scaled :=
  let top := x.mantissa * Nat.pow 2 x.exponent.toNat * Nat.pow 10 (-exponent).toNat
  let bottom := Nat.pow 2 (-x.exponent).toNat * Nat.pow 10 exponent.toNat
  let below : Scaled := ⟨top / bottom, exponent⟩
  let above : Scaled := ⟨top / bottom + 1, exponent⟩
  match below.roundsTo x, above.roundsTo x with
  | true, false => some below
  | false, true => some above
  | false, false => none
  | true, true =>
    match compare (2 * (top % bottom)) bottom with
    | .lt => some below
    | .gt => some above
    | .eq => some (if below.digits % 2 = 0 then below else above)

/-- The shortest decimal that rounds to the magnitude `x`, without zeros at its end.  Seventeen
digits always suffice; the exact value of `x` stands behind them. -/
def shortest (x : Magnitude) : Scaled :=
  if x.mantissa = 0 then ⟨0, 0⟩
  else
    let k := leadingPower x 640 (-324)
    let found := (List.range 17).findSome? fun n => onGrid? x (k - (n + 1 : Nat))
    match found with
    | some d => dropZeros d.digits d.exponent
    | none =>
      dropZeros (x.mantissa * Nat.pow 2 x.exponent.toNat * Nat.pow 5 (-x.exponent).toNat)
        (min x.exponent 0)

end Scaled

end TransferQueue
