import TransferQueue.Proofs.Calendar
import TransferQueue.Proofs.Digits
import TransferQueue.Time.Timestamp

/-!
# Timestamps read back

The text of an instant is read again as that instant.  Reading is more generous than writing, so this
takes, at each part of the text, that nothing of what the reader would also accept stands there: no blank
before a number, no further digit behind it.  Numbers have a fixed number of digits, and only the fraction
of a second varies.

Instants with a year beyond four digits are left out, and so are leap seconds.

* `Instant.Reader.number_text`, `Instant.Reader.part_twoDigits`: numbers read back;
* `Instant.Reader.date_text`, `Instant.Reader.time_text`: date and time read back;
* `Instant.ofText?_text`: an instant reads back.
-/

namespace TransferQueue

namespace Instant

namespace Reader

variable {α β : Type} {cs rest : List Char}

/-- A reader that has succeeded hands over to the next one. -/
theorem bind_eq {x : Reader α} {a : α} {f : α → Reader β} (h : x cs = some (a, rest)) :
    (x >>= f) cs = f a rest := by
  simp [bind, StateT.bind, h]

theorem pure_eq (a : α) (cs : List Char) : (pure a : Reader α) cs = some (a, cs) := rfl

theorem get_eq (cs : List Char) : (get : Reader (List Char)) cs = some (cs, cs) := rfl

/-! ## Numbers -/

theorem isBlank_toChar (d : Digit) : isBlank d.toChar = false := by
  revert d
  decide

theorem blanks_cons {c : Char} (hc : isBlank c = false) (rest : List Char) :
    blanks (c :: rest) = some ((), c :: rest) := by
  have hnone : dropBlanks (c :: rest) = c :: rest := List.dropWhile_cons_of_neg (by simp [hc])
  show some ((), dropBlanks (c :: rest)) = _
  rw [hnone]

theorem blanks_text {ds : List Digit} (hne : ds ≠ []) (rest : List Char) :
    blanks (Digit.text ds ++ rest) = some ((), Digit.text ds ++ rest) := by
  obtain ⟨d, ds, rfl⟩ := List.exists_cons_of_ne_nil hne
  exact blanks_cons (isBlank_toChar d) (Digit.text ds ++ rest)

/-- A number with the greatest number of digits ends there, whatever stands behind it. -/
theorem number_text {ds : List Digit} {width : Nat} (hlength : ds.length = width) (hne : ds ≠ [])
    (rest : List Char) : number width (Digit.text ds ++ rest) = some (Digit.value ds, rest) := by
  have htake : (Digit.text ds ++ rest).take width = Digit.text ds :=
    List.take_left' (by simpa [Digit.text] using hlength)
  have hdrop : (Digit.text ds ++ rest).drop ds.length = rest :=
    List.drop_left' (by simp [Digit.text])
  have hspan : Digit.span (Digit.text ds) = (ds, []) := by
    have hnone : ∀ c ∈ ([] : List Char).head?, Digit.ofChar? c = none := by simp
    simpa using Digit.span_text_append ds hnone
  have hsome : ds.isEmpty = false := by simpa using hne
  rw [number, bind_eq (get_eq _)]
  simp only [htake, hspan, hsome, Bool.false_eq_true, if_false]
  show some (Digit.value ds, (Digit.text ds ++ rest).drop ds.length) = _
  rw [hdrop]

theorem number_ofNatPadded {n width : Nat} (hwidth : 0 < width) (hn : n < 10 ^ width)
    (rest : List Char) :
    number width (Digit.text (Digit.ofNatPadded width n) ++ rest) = some (n, rest) := by
  have h := number_text (Digit.length_ofNatPadded hwidth hn) (Digit.ofNatPadded_ne_nil width n) rest
  rwa [Digit.value_ofNatPadded] at h

/-- A number of two digits is read up to its last digit. -/
theorem part_twoDigits {n least greatest : Nat} (hleast : least ≤ n) (hgreatest : n ≤ greatest)
    (hn : n < 100) (rest : List Char) :
    part least greatest (twoDigits n ++ rest) = some (n, rest) := by
  have hblanks : blanks (twoDigits n ++ rest) = some ((), twoDigits n ++ rest) :=
    blanks_text (Digit.ofNatPadded_ne_nil 2 n) rest
  have hnumber : number 2 (twoDigits n ++ rest) = some (n, rest) :=
    number_ofNatPadded (by decide) hn rest
  rw [part, bind_eq hblanks, bind_eq hnumber]
  dsimp only
  rw [if_neg (by omega)]
  rfl

theorem mark_cons {c : Char} (hc : isBlank c = false) (rest : List Char) :
    mark c (c :: rest) = some ((), rest) := by
  rw [mark, bind_eq (blanks_cons hc rest), bind_eq (get_eq _)]
  dsimp only
  rw [if_pos rfl]
  rfl

/-! ## Dates -/

/-- A year of at most four digits is written without a sign and with all four of them. -/
theorem year_text {y : Int} (hleast : 0 ≤ y) (hgreatest : y ≤ 9999) (rest : List Char) :
    year (yearText y ++ rest) = some (y, rest) := by
  have htext : yearText y = Digit.text (Digit.ofNatPadded 4 y.natAbs) := if_pos ⟨hleast, hgreatest⟩
  obtain ⟨d, ds, hdigits⟩ := List.exists_cons_of_ne_nil (Digit.ofNatPadded_ne_nil 4 y.natAbs)
  have hnumber : number 4 (Digit.text (Digit.ofNatPadded 4 y.natAbs) ++ rest)
      = some (y.natAbs, rest) := number_ofNatPadded (by decide) (by omega) rest
  rw [htext]
  rw [hdigits] at hnumber ⊢
  have hblanks := blanks_text (List.cons_ne_nil d ds) rest
  -- a digit is no sign
  have hsigns : ∀ d : Digit, d.toChar ≠ '-' ∧ d.toChar ≠ '+' := by decide
  obtain ⟨hminus, hplus⟩ := hsigns d
  have hcons : Digit.text (d :: ds) ++ rest = d.toChar :: (Digit.text ds ++ rest) := rfl
  rw [year, bind_eq hblanks, bind_eq (get_eq _)]
  rw [hcons] at hnumber ⊢
  -- without a sign four digits are read
  have hmap : ((Nat.cast : Nat → Int) <$> number 4) (d.toChar :: (Digit.text ds ++ rest))
      = some (y, rest) := by
    simp [Functor.map, StateT.map, hnumber, Int.natAbs_of_nonneg hleast]
  simpa [hminus, hplus] using hmap

/-- A date of four digits for the year reads back, if the calendar has it. -/
theorem date_text {day : Date} (hvalid : day.isValid = true) (hleast : 0 ≤ day.year)
    (hgreatest : day.year ≤ 9999) (rest : List Char) :
    date (yearText day.year ++ '-' :: twoDigits day.month ++ '-' :: twoDigits day.day ++ rest)
      = some (day, rest) := by
  obtain ⟨hmonth, hmonth', hday, hlength⟩ := Date.isValid_iff.1 hvalid
  have hday' : day.day ≤ 31 := Nat.le_trans hlength (Date.daysInMonth_le day.year day.month)
  simp only [List.append_assoc, List.cons_append]
  rw [date, bind_eq (year_text hleast hgreatest _), bind_eq (mark_cons rfl _),
    bind_eq (part_twoDigits hmonth hmonth' (by omega) _), bind_eq (mark_cons rfl _),
    bind_eq (part_twoDigits hday hday' (by omega) _)]
  rw [if_pos hvalid]
  rfl

/-! ## Times -/

/-- The nanoseconds read back, with as many digits as they were written with. -/
theorem fraction_text {nanos : Nat} (h : nanos < 1000000000) (rest : List Char) :
    fraction (fractionText nanos ++ 'Z' :: rest) = some (nanos, 'Z' :: rest) := by
  -- the reader takes up to nine digits of any number of them, and zeros for those that are missing
  have hpoint : ∀ ds : List Digit, ds ≠ [] →
      fraction ('.' :: Digit.text ds ++ 'Z' :: rest)
        = some (Digit.value (ds.take 9) * 10 ^ (9 - ds.length), 'Z' :: rest) := by
    intro ds hne
    have hspan : Digit.span (Digit.text ds ++ 'Z' :: rest) = (ds, 'Z' :: rest) :=
      Digit.span_text_append ds (by simp; decide)
    have hsome : ds.isEmpty = false := by simpa using hne
    rw [fraction, bind_eq (get_eq _)]
    simp only [List.cons_append, hspan, hsome, Bool.false_eq_true, if_false]
    rfl
  have hdigits : ∀ width n, 0 < width → width ≤ 9 → n < 10 ^ width → n * 10 ^ (9 - width) = nanos →
      fraction ('.' :: Digit.text (Digit.ofNatPadded width n) ++ 'Z' :: rest)
        = some (nanos, 'Z' :: rest) := by
    intro width n hwidth hshort hn hnanos
    have hlength := Digit.length_ofNatPadded hwidth hn
    rw [hpoint _ (Digit.ofNatPadded_ne_nil width n), List.take_of_length_le (by omega), hlength,
      Digit.value_ofNatPadded, hnanos]
  rw [fractionText]
  split
  · rename_i hzero
    rw [hzero]
    rfl
  · split
    · exact hdigits 3 _ (by decide) (by decide) (by omega) (by omega)
    · split
      · exact hdigits 6 _ (by decide) (by decide) (by omega) (by omega)
      · exact hdigits 9 _ (by decide) (by decide) (by omega) (by omega)

theorem time_text {hour minute second nanos : Nat} (hhour : hour < 24) (hminute : minute < 60)
    (hsecond : second < 60) (hnanos : nanos < 1000000000) (rest : List Char) :
    time (twoDigits hour ++ ':' :: twoDigits minute ++ ':' :: twoDigits second
        ++ fractionText nanos ++ 'Z' :: rest)
      = some ((3600 * hour + 60 * minute + second, ⟨nanos, by omega⟩), 'Z' :: rest) := by
  simp only [List.append_assoc, List.cons_append]
  rw [time, bind_eq (part_twoDigits (Nat.zero_le _) (Nat.le_of_lt_succ hhour) (by omega) _),
    bind_eq (mark_cons rfl _),
    bind_eq (part_twoDigits (Nat.zero_le _) (Nat.le_of_lt_succ hminute) (by omega) _),
    bind_eq (mark_cons rfl _),
    bind_eq (part_twoDigits (Nat.zero_le _) (Nat.le_of_lt hsecond) (by omega) _),
    bind_eq (fraction_text hnanos _)]
  -- no second of the minute is a leap second
  have hnone : second / 60 = 0 := Nat.div_eq_of_lt hsecond
  have hkept : nanos % 1000000000 + 1000000000 * 0 = nanos := by omega
  simp only [hnone, hkept]
  rw [dif_pos (by omega)]
  rfl

theorem separator_T (rest : List Char) : separator ('T' :: rest) = some ((), rest) := rfl

theorem blanks_nil : blanks [] = some ((), []) := rfl

theorem blanks_Z : blanks ['Z'] = some ((), ['Z']) := blanks_cons rfl []

theorem offset_Z : offset ['Z'] = some (0, []) := rfl

end Reader

/-- The years of four digits are far from the ends of the timeline. -/
theorem inRange_of_date {t : Instant} (hleast : 0 ≤ t.date.year) (hgreatest : t.date.year ≤ 9999) :
    t.inRange = true := by
  have hvalid : t.date.isValid = true := Date.isValid_ofDayNumber _
  obtain ⟨hlow, hhigh⟩ := Date.toDayNumber_bounds hvalid hleast hgreatest
  have hday : t.date.toDayNumber = t.seconds / 86400 := Date.toDayNumber_ofDayNumber _
  have hfirst : firstSecond ≤ -86400000000 := by decide
  have hlast : 864000000000 ≤ lastSecond := by decide
  rw [inRange, Bool.and_eq_true, decide_eq_true_eq, decide_eq_true_eq]
  omega

/-- What is written of an instant is read again as that instant. -/
theorem ofText?_text {t : Instant} (hnanos : t.nanos < 1000000000) (hleast : 0 ≤ t.date.year)
    (hgreatest : t.date.year ≤ 9999) : ofText? t.text = some t := by
  have hday : t.secondOfDay < 86400 := by
    rw [secondOfDay]
    omega
  have hleap : t.nanos / 1000000000 = 0 := Nat.div_eq_of_lt hnanos
  have hkept : t.nanos % 1000000000 = t.nanos := Nat.mod_eq_of_lt hnanos
  have hseconds : 86400 * t.date.toDayNumber + ((3600 * (t.secondOfDay / 3600)
      + 60 * (t.secondOfDay / 60 % 60) + t.secondOfDay % 60 : Nat) : Int) = t.seconds := by
    rw [date, Date.toDayNumber_ofDayNumber, secondOfDay]
    omega
  have htext : t.text.toList
      = yearText t.date.year ++ '-' :: twoDigits t.date.month ++ '-' :: twoDigits t.date.day
        ++ 'T' :: (twoDigits (t.secondOfDay / 3600) ++ ':' :: twoDigits (t.secondOfDay / 60 % 60)
          ++ ':' :: twoDigits (t.secondOfDay % 60) ++ fractionText t.nanos ++ ['Z']) := by
    simp [text, hleap, hkept]
  have hvalid : t.date.isValid = true := Date.isValid_ofDayNumber _
  simp only [ofText?, htext]
  rw [Reader.bind_eq (Reader.date_text hvalid hleast hgreatest _), Reader.bind_eq (Reader.separator_T _),
    Reader.bind_eq (Reader.time_text (by omega) (by omega) (by omega) hnanos []),
    Reader.bind_eq Reader.blanks_Z, Reader.bind_eq Reader.offset_Z, Reader.bind_eq Reader.blanks_nil,
    Reader.pure_eq]
  simp only [bind, Option.bind_some, hseconds, Int.sub_zero]
  rw [if_neg (by simp), inRange_of_date hleast hgreatest]
  rfl

end Instant

end TransferQueue
