import TransferQueue.Time.Calendar

/-!
# Days and dates

Every day number has a date, and the date has that number.  The date is found by taking the greatest
number of whole centuries, leap cycles and years out of the day number; what is left is a day of a
year that starts in March, and from there on only the days of that year count.

* `Date.ofMarch`: the date of a day of such a year;
* `Date.ofDayNumber_eq`: which day of which year a day number is;
* `Date.isValid_ofDayNumber`: every day number has a date of the calendar;
* `Date.toDayNumber_ofDayNumber`: its number is the one that it was made from;
* `Date.toDayNumber_bounds`: how far the years of four digits reach.
-/

namespace TransferQueue

namespace Date

theorem isValid_iff {date : Date} :
    date.isValid = true ↔ 1 ≤ date.month ∧ date.month ≤ 12 ∧ 1 ≤ date.day
      ∧ date.day ≤ daysInMonth date.year date.month := by
  simp [isValid, and_assoc]

theorem daysInMonth_le (year : Int) (month : Nat) : daysInMonth year month ≤ 31 := by
  rw [daysInMonth]
  split
  · split <;> decide
  · split <;> decide

/-! ## Days of a year -/

/-- The month of a day of the year that starts in March, counted from March on. -/
def monthOf (days : Nat) : Nat := (5 * days + 2) / 153

/-- The date that comes `days` days after the first of March of a year. -/
def ofMarch (year : Int) (days : Nat) : Date :=
  ⟨if monthOf days < 10 then year else year + 1,
    if monthOf days < 10 then monthOf days + 3 else monthOf days - 9,
    days - monthStart (monthOf days) + 1⟩

variable {year : Int} {days : Nat}

theorem monthOf_lt (h : days ≤ 365) : monthOf days < 12 := by
  rw [monthOf]
  omega

/-- A day is not before the first of its month. -/
theorem monthStart_monthOf_le (days : Nat) : monthStart (monthOf days) ≤ days := by
  rw [monthStart, monthOf]
  omega

/-- A day is before the first of the next month. -/
theorem lt_monthStart_succ (days : Nat) : days < monthStart (monthOf days + 1) := by
  rw [monthStart, monthOf]
  omega

theorem toDayNumber_ofMarch (h : days ≤ 365) :
    toDayNumber (ofMarch year days) = yearStart year + days - marchOfYearZero := by
  have hmonth := monthOf_lt h
  have hstart := monthStart_monthOf_le days
  by_cases hspring : monthOf days < 10
  · have hback : (monthOf days + 3 + 9) % 12 = monthOf days := by omega
    simp only [toDayNumber, ofMarch, if_pos hspring, hback]
    rw [if_neg (by omega)]
    omega
  · have hback : (monthOf days - 9 + 9) % 12 = monthOf days := by omega
    simp only [toDayNumber, ofMarch, if_neg hspring, hback]
    rw [if_pos (by omega)]
    have hyear : year + 1 - 1 = year := by omega
    rw [hyear]
    omega

/-- The months from March on are as long as the calendar says.  Only the last one, February, depends on
the year. -/
theorem monthStart_succ_le (year : Int) {month : Nat} (h : month < 11) :
    monthStart (month + 1)
      ≤ monthStart month + daysInMonth (if month < 10 then year else year + 1)
          (if month < 10 then month + 3 else month - 9) := by
  have hmonths : month = 0 ∨ month = 1 ∨ month = 2 ∨ month = 3 ∨ month = 4 ∨ month = 5 ∨ month = 6
      ∨ month = 7 ∨ month = 8 ∨ month = 9 ∨ month = 10 := by omega
  rcases hmonths with rfl | rfl | rfl | rfl | rfl | rfl | rfl | rfl | rfl | rfl | rfl <;>
    simp [monthStart, daysInMonth]

theorem isValid_ofMarch (h : days ≤ 365) (hleap : days = 365 → isLeap (year + 1) = true) :
    (ofMarch year days).isValid = true := by
  have hmonth := monthOf_lt h
  have hstart := monthStart_monthOf_le days
  have hnext := lt_monthStart_succ days
  rw [isValid_iff]
  simp only [ofMarch]
  refine ⟨by split <;> omega, by split <;> omega, by omega, ?_⟩
  by_cases hlast : monthOf days < 11
  · have hlength := monthStart_succ_le year hlast
    omega
  · -- February ends with the leap day, or the day before it
    have hfebruary : monthOf days = 11 := by omega
    have hlength : daysInMonth (year + 1) 2 = if isLeap (year + 1) then 29 else 28 := rfl
    simp only [hfebruary, show ¬11 < 10 by decide, if_false, show 11 - 9 = 2 by decide, hlength,
      show monthStart 11 = 337 by decide]
    by_cases hday : days = 365
    · rw [if_pos (hleap hday)]
      omega
    · split <;> omega

/-! ## Day numbers -/

variable {centuries leaps years : Nat}

/-- Four hundred years, one hundred years, four years and one year have so many days. -/
theorem yearStart_cycles (era : Int) (hcenturies : centuries ≤ 3) (hleaps : leaps ≤ 24)
    (hyears : years ≤ 3) :
    yearStart (400 * era + 100 * centuries + 4 * leaps + years)
      = 146097 * era + 36524 * centuries + 1461 * leaps + 365 * years := by
  -- the smaller cycles do not fill a greater one
  have hfour : (400 * era + 100 * centuries + 4 * leaps + years) / 4
      = 100 * era + 25 * centuries + leaps := by omega
  have hhundred : (400 * era + 100 * centuries + 4 * leaps + years) / 100
      = 4 * era + centuries := by omega
  have hera : (400 * era + 100 * centuries + 4 * leaps + years) / 400 = era := by omega
  rw [yearStart, hfour, hhundred, hera]
  omega

/-- A year that ends four years is followed by a leap year, unless it ends one, two or three
centuries. -/
theorem isLeap_cycles (era : Int) (hleaps : leaps ≤ 24) (hlast : leaps = 24 → centuries = 3) :
    isLeap (400 * era + 100 * centuries + 4 * leaps + (3 : Nat) + 1) = true := by
  simp only [isLeap, Bool.and_eq_true, Bool.or_eq_true, beq_iff_eq, bne_iff_ne, ne_eq]
  omega

/-- What is left when the greatest number of each has been taken out of the days of four hundred
years.  A day that no year of three hundred and sixty-five days has is left at the end of four years
only, and at the end of a century only if it is the last one. -/
theorem cycles_of_lt {inEra inCentury inLeap inYear : Nat} (h : inEra < 146097)
    (hcenturies : centuries = min (inEra / 36524) 3) (hinCentury : inCentury = inEra - 36524 * centuries)
    (hleaps : leaps = inCentury / 1461) (hinLeap : inLeap = inCentury - 1461 * leaps)
    (hyears : years = min (inLeap / 365) 3) (hinYear : inYear = inLeap - 365 * years) :
    centuries ≤ 3 ∧ leaps ≤ 24 ∧ years ≤ 3 ∧ inYear ≤ 365
      ∧ inEra = 36524 * centuries + 1461 * leaps + 365 * years + inYear
      ∧ (inYear = 365 → years = 3 ∧ (leaps = 24 → centuries = 3)) := by
  -- one cycle after the other, and each is forgotten once its remainder is bounded
  have hc : centuries ≤ 3 ∧ 36524 * centuries ≤ inEra ∧ inCentury ≤ 36524
      ∧ (inCentury = 36524 → centuries = 3) := by omega
  clear hcenturies h
  have hl : leaps ≤ 24 ∧ 1461 * leaps ≤ inCentury ∧ inLeap ≤ 1460
      ∧ (inLeap = 1460 → leaps = 24 → inCentury = 36524) := by omega
  clear hleaps
  have hy : years ≤ 3 ∧ 365 * years ≤ inLeap ∧ inYear ≤ 365
      ∧ (inYear = 365 → years = 3 ∧ inLeap = 1460) := by omega
  omega

/-- A day number is a day of a year that starts in March.  Such a year has a leap day if the year of
its last months is a leap year. -/
theorem ofDayNumber_eq (n : Int) :
    ∃ year days, ofDayNumber n = ofMarch year days ∧ days ≤ 365
      ∧ (days = 365 → isLeap (year + 1) = true)
      ∧ yearStart year + (days : Int) = n + marchOfYearZero := by
  have hera : ((n + marchOfYearZero) % 146097).toNat < 146097 := by omega
  obtain ⟨hcenturies, hleaps, hyears, hdays, hsum, hleap⟩ :=
    cycles_of_lt hera rfl rfl rfl rfl rfl rfl
  refine ⟨_, _, rfl, hdays, ?_, ?_⟩
  · intro hday
    obtain ⟨hlast, hcentury⟩ := hleap hday
    rw [hlast]
    exact isLeap_cycles _ hleaps hcentury
  · rw [yearStart_cycles _ hcenturies hleaps hyears]
    omega

theorem isValid_ofDayNumber (n : Int) : (ofDayNumber n).isValid = true := by
  obtain ⟨year, days, heq, hdays, hleap, -⟩ := ofDayNumber_eq n
  rw [heq]
  exact isValid_ofMarch hdays hleap

theorem toDayNumber_ofDayNumber (n : Int) : toDayNumber (ofDayNumber n) = n := by
  obtain ⟨year, days, heq, hdays, -, hnumber⟩ := ofDayNumber_eq n
  rw [heq, toDayNumber_ofMarch hdays, hnumber]
  omega

/-- The years from zero to 9999 have numbers of at most seven digits. -/
theorem toDayNumber_bounds {date : Date} (hvalid : date.isValid = true) (hleast : 0 ≤ date.year)
    (hgreatest : date.year ≤ 9999) :
    -1000000 ≤ date.toDayNumber ∧ date.toDayNumber ≤ 9000000 := by
  obtain ⟨hmonth, hmonth', hday, hlength⟩ := isValid_iff.1 hvalid
  have hday' := Nat.le_trans hlength (daysInMonth_le date.year date.month)
  have hstart : monthStart ((date.month + 9) % 12) ≤ 337 := by
    rw [monthStart]
    omega
  have hyear : ∀ year : Int, -1 ≤ year → year ≤ 9999 →
      -1000 ≤ yearStart year ∧ yearStart year ≤ 4000000 := by
    intro year hlow hhigh
    rw [yearStart]
    omega
  rw [toDayNumber, marchOfYearZero]
  -- January and February count to the year that started in March before
  by_cases hspring : date.month ≤ 2
  · have hbounds := hyear (date.year - 1) (by omega) (by omega)
    rw [if_pos hspring]
    omega
  · have hbounds := hyear date.year (by omega) hgreatest
    rw [if_neg hspring]
    omega

end Date

end TransferQueue
