import TransferQueue.Double.Magnitude
import TransferQueue.Time.Instant

/-!
# The pace of a transfer and the time it still takes

The speed of a transfer jumps from one report to the next, so the queue keeps an exponentially
weighted average of it: each new speed counts with a fixed weight, the average so far with the
rest.  The time left is the number of bytes left divided by the average, rounded up to whole
seconds.  A time of `2 ^ 64` seconds or more cannot be expressed, and estimating it fails.

* `Pace.start` and `Pace.observe` keep the average;
* `Pace.timeLeft` estimates the time left.
-/

namespace TransferQueue

/-- The estimator of the remaining time of a transfer: its smoothed speed. -/
structure Pace where
  /-- The average, in bytes per second. -/
  smoothed : Float
  /-- The weight of a new speed, above zero and at most one. -/
  weight : Float
deriving DecidableEq, Repr

/-- An estimated time is too long to be expressed. -/
inductive Overflow where
  | tooLong
deriving DecidableEq, Repr

namespace Pace

/-- The weight of a new speed when no usable one is given. -/
def defaultWeight : Float := 0.3

/-- The weight that a requested one stands for: at most one, and the default for one that is not
above zero or not finite. -/
def usableWeight (requested : Float) : Float :=
  if requested.isFinite && requested > 0.0 then
    if requested < 1.0 then requested else 1.0
  else defaultWeight

/-- The pace after the first speed. -/
def start (speed : UInt64) (weight : Float) : Pace := ⟨speed.toFloat, usableWeight weight⟩

/-- The pace after one more speed. -/
def observe (pace : Pace) (speed : UInt64) : Pace :=
  { pace with smoothed := pace.weight * speed.toFloat + (1.0 - pace.weight) * pace.smoothed }

/-- The whole seconds that a double stands for, rounded up. -/
def wholeSeconds (x : Float) : Except Overflow Span :=
  match Magnitude.ofFloat? x with
  | none => .error .tooLong
  | some m => if m.ceil < UInt64.size then .ok (.ofSeconds (UInt64.ofNat m.ceil)) else .error .tooLong

/-- The time that the remaining bytes take at the present pace.  Nothing is known while the
average is below one byte per second, unless nothing is left. -/
def timeLeft (pace : Pace) (remaining : UInt64) : Except Overflow (Option Span) :=
  if remaining = 0 then .ok (some .zero)
  else if pace.smoothed < 1.0 then .ok none
  else (wholeSeconds (remaining.toFloat / pace.smoothed)).map some

/-- The average in whole bytes per second, to the nearest, within sixty-four bits. -/
def shown (pace : Pace) : UInt64 :=
  if pace.smoothed ≤ 0.0 then 0
  else
    match Magnitude.ofFloat? pace.smoothed with
    | none => if pace.smoothed.isNaN then 0 else UInt64.ofNat (UInt64.size - 1)
    | some m => UInt64.ofNat (min m.round (UInt64.size - 1))

end Pace

end TransferQueue
