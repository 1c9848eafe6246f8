import TransferQueue.Time.Calendar

/-!
# Instants and spans of time

A span counts whole seconds and the nanoseconds beyond them.

An instant is a point of the timeline of coordinated universal time.  A leap second is the second
before it with a thousand million nanoseconds more.  The timeline is limited: the years go from
-262143 to 262142, and adding a time that leads beyond the end has no result.
-/

namespace TransferQueue

/-- A length of time. -/
structure Span where
  /-- The whole seconds. -/
  seconds : UInt64
  /-- The nanoseconds beyond the whole seconds. -/
  nanos : Nat
  /-- A full second is counted among the seconds. -/
  nanos_lt : nanos < 1000000000
deriving DecidableEq, Repr

namespace Span

/-- A span of whole seconds. -/
def ofSeconds (seconds : UInt64) : Span := ⟨seconds, 0, by decide⟩

/-- The span of no length. -/
def zero : Span := ofSeconds 0

/-- The span of a number of seconds and nanoseconds, of which full seconds carry over.  There is
none if the seconds do not fit in sixty-four bits. -/
def ofParts? (seconds nanos : Nat) : Option Span :=
  if seconds + nanos / 1000000000 < UInt64.size then
    some ⟨UInt64.ofNat (seconds + nanos / 1000000000), nanos % 1000000000,
      Nat.mod_lt _ (by decide)⟩
  else none

end Span

/-- A point in time. -/
structure Instant where
  /-- The seconds since the start of 1970, leap seconds left out. -/
  seconds : Int
  /-- The nanoseconds since that second began; a thousand million more within a leap second. -/
  nanos : Nat
  /-- A second and the leap second after it have two thousand million nanoseconds. -/
  nanos_lt : nanos < 2000000000
deriving DecidableEq, Repr

namespace Instant

/-- The first second of the timeline. -/
def firstSecond : Int := 86400 * Date.toDayNumber ⟨-262143, 1, 1⟩

/-- The last second of the timeline. -/
def lastSecond : Int := 86400 * Date.toDayNumber ⟨262142, 12, 31⟩ + 86399

/-- Whether an instant is within the timeline. -/
def inRange (t : Instant) : Bool := firstSecond ≤ t.seconds && t.seconds ≤ lastSecond

/-- The instant `millis` milliseconds later, if it is within the timeline.  A time that does not
lead out of a leap second stays in it. -/
def later? (t : Instant) (millis : Nat) : Option Instant :=
  let nanos := millis % 1000 * 1000000
  let moved : Instant :=
    if h : 1000000000 ≤ t.nanos ∧ millis < 1000 ∧ t.nanos + nanos < 2000000000 then
      ⟨t.seconds, t.nanos + nanos, h.2.2⟩
    else
      let sum := t.nanos % 1000000000 + nanos
      ⟨t.seconds + (millis / 1000 : Nat) + (sum / 1000000000 : Nat), sum % 1000000000, by omega⟩
  if moved.inRange then some moved else none

/-- The date of an instant. -/
def date (t : Instant) : Date := Date.ofDayNumber (t.seconds / 86400)

/-- The second of the day of an instant. -/
def secondOfDay (t : Instant) : Nat := (t.seconds % 86400).toNat

end Instant

end TransferQueue
