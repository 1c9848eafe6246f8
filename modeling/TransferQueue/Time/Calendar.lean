/-!
# Dates and day numbers

Days are numbered from the first of January 1970.  The conversion counts years from the first of
March, so that a leap day is the last day of its year: a year then starts `yearStart` days after
the first of March of the year zero, and four hundred years, one hundred years, four years and one
year take the greatest number of days out of a day number in turn.
-/

namespace TransferQueue

/-- A date of the Gregorian calendar, which is continued into the past; the year zero precedes the
year one. -/
structure Date where
  /-- The year. -/
  year : Int
  /-- The month, from one to twelve. -/
  month : Nat
  /-- The day of the month, from one on. -/
  day : Nat
deriving DecidableEq, Repr

namespace Date

/-- Whether a year has a leap day. -/
def isLeap (year : Int) : Bool := year % 4 == 0 && (year % 100 != 0 || year % 400 == 0)

/-- The number of days of a month. -/
def daysInMonth (year : Int) (month : Nat) : Nat :=
  if month = 2 then if isLeap year then 29 else 28
  else if month = 4 ∨ month = 6 ∨ month = 9 ∨ month = 11 then 30
  else 31

/-- Whether the calendar has the date. -/
def isValid (date : Date) : Bool :=
  1 ≤ date.month && date.month ≤ 12 && 1 ≤ date.day
    && date.day ≤ daysInMonth date.year date.month

/-- The days from the first of March of the year zero to the first of March of a year. -/
def yearStart (year : Int) : Int := 365 * year + year / 4 - year / 100 + year / 400

/-- The days from the first of March to the first of the month that comes `month` months later. -/
def monthStart (month : Nat) : Nat := (153 * month + 2) / 5

/-- The number of the first of March of the year zero, with its sign changed. -/
def marchOfYearZero : Int := 719468

/-- The number of a date. -/
def toDayNumber (date : Date) : Int :=
  let year := if date.month ≤ 2 then date.year - 1 else date.year
  yearStart year + monthStart ((date.month + 9) % 12) + date.day - 1 - marchOfYearZero

/-- The date with a given number. -/
def ofDayNumber (n : Int) : Date :=
  let n := n + marchOfYearZero
  let inEra := (n % 146097).toNat
  let centuries := min (inEra / 36524) 3
  let inCentury := inEra - 36524 * centuries
  let leaps := inCentury / 1461
  let inLeap := inCentury - 1461 * leaps
  let years := min (inLeap / 365) 3
  let inYear := inLeap - 365 * years
  let month := (5 * inYear + 2) / 153
  let year := 400 * (n / 146097) + 100 * centuries + 4 * leaps + years
  ⟨if month < 10 then year else year + 1, if month < 10 then month + 3 else month - 9,
    inYear - monthStart month + 1⟩

end Date

end TransferQueue
