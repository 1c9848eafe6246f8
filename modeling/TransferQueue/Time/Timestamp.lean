import TransferQueue.Digit
import TransferQueue.Time.Instant

/-!
# Timestamps

An instant is written as date and time of coordinated universal time, with as many digits after
the seconds as it needs out of none, three, six and nine, and the letter `Z`.  The seconds of a
leap second are written as sixty.

Reading is more generous: numbers may have blanks before them and fewer digits, date and time may
be set apart by a blank, and the time may be that of any offset from universal time.  Blanks are
those of ASCII and those that a Unicode text may use besides.

* `Instant.text` writes an instant;
* `Instant.ofText?` reads one.
-/

namespace TransferQueue

/-- Whether a character is white space. -/
def isBlank (c : Char) : Bool :=
  let n := c.toNat
  (9 ≤ n && n ≤ 13) || n == 0x20 || n == 0x85 || n == 0xA0 || n == 0x1680
    || (0x2000 ≤ n && n ≤ 0x200A) || n == 0x2028 || n == 0x2029 || n == 0x202F || n == 0x205F
    || n == 0x3000

/-- A text without the white space at its front. -/
def dropBlanks (cs : List Char) : List Char := cs.dropWhile isBlank

namespace Instant

/-! ## Writing -/

/-- A year has four digits and no sign, or a sign and at least four digits. -/
def yearText (year : Int) : List Char :=
  if 0 ≤ year ∧ year ≤ 9999 then Digit.text (Digit.ofNatPadded 4 year.natAbs)
  else (if year < 0 then '-' else '+') :: Digit.text (Digit.ofNatPadded 4 year.natAbs)

/-- The digits after the seconds, in the shortest of the forms of three, six and nine digits. -/
def fractionText (nanos : Nat) : List Char :=
  if nanos = 0 then []
  else if nanos % 1000000 = 0 then '.' :: Digit.text (Digit.ofNatPadded 3 (nanos / 1000000))
  else if nanos % 1000 = 0 then '.' :: Digit.text (Digit.ofNatPadded 6 (nanos / 1000))
  else '.' :: Digit.text (Digit.ofNatPadded 9 nanos)

/-- A number of two digits. -/
def twoDigits (n : Nat) : List Char := Digit.text (Digit.ofNatPadded 2 n)

/-- The text of an instant. -/
def text (t : Instant) : String :=
  let date := t.date
  let second := t.secondOfDay % 60 + t.nanos / 1000000000
  String.ofList
    (yearText date.year ++ '-' :: twoDigits date.month ++ '-' :: twoDigits date.day
      ++ 'T' :: twoDigits (t.secondOfDay / 3600) ++ ':' :: twoDigits (t.secondOfDay / 60 % 60)
      ++ ':' :: twoDigits second ++ fractionText (t.nanos % 1000000000) ++ ['Z'])

/-! ## Reading -/

/-- A reader of the front of a text. -/
abbrev Reader := StateT (List Char) Option

namespace Reader

/-- Pass over blanks. -/
def blanks : Reader Unit := modify dropBlanks

/-- A number of at least one and at most `width` digits. -/
def number (width : Nat) : Reader Nat := do
  let digits := (Digit.span ((← get).take width)).1
  if digits.isEmpty then failure
  modify (List.drop digits.length)
  return Digit.value digits

/-- A number of one or two digits after blanks, which lies between two bounds. -/
def part (least greatest : Nat) : Reader Nat := do
  blanks
  let n ← number 2
  if n < least ∨ greatest < n then failure
  return n

/-- A character that is given, after blanks. -/
def mark (c : Char) : Reader Unit := do
  blanks
  match ← get with
  | [] => failure
  | c' :: cs => if c' = c then set cs else failure

/-- A year: up to four digits, or a sign and any number of digits. -/
def year : Reader Int := do
  blanks
  match ← get with
  | '-' :: cs =>
    set cs
    return -((← number cs.length) : Int)
  | '+' :: cs =>
    set cs
    number cs.length
  | _ => number 4

/-- A date that the calendar has. -/
def date : Reader Date := do
  let year ← year
  mark '-'
  let month ← part 1 12
  mark '-'
  let day ← part 1 31
  let date : Date := ⟨year, month, day⟩
  if date.isValid then return date else failure

/-- What stands between date and time. -/
def separator : Reader Unit := do
  match ← get with
  | 'T' :: cs | 't' :: cs | ' ' :: cs => set cs
  | _ => failure

/-- The nanoseconds that a fraction of a second stands for, if there is one; digits beyond the
ninth do not count. -/
def fraction : Reader Nat := do
  match ← get with
  | '.' :: cs =>
    let (digits, rest) := Digit.span cs
    if digits.isEmpty then failure
    set rest
    return Digit.value (digits.take 9) * Nat.pow 10 (9 - digits.length)
  | _ => return 0

/-- The time of a day as a number of seconds, and the nanoseconds beyond. -/
def time : Reader (Nat × { nanos : Nat // nanos < 2000000000 }) := do
  let hour ← part 0 23
  mark ':'
  let minute ← part 0 59
  mark ':'
  let second ← part 0 60
  let nanos ← fraction
  let leap := second / 60
  let nanos := nanos % 1000000000 + 1000000000 * leap
  if h : nanos < 2000000000 then return (3600 * hour + 60 * minute + (second - leap), ⟨nanos, h⟩)
  else failure

/-- A number of exactly two digits that is less than `bound`. -/
def pair (bound : Nat) : Reader Nat := do
  match ← get with
  | a :: b :: cs =>
    match Digit.ofChar? a, Digit.ofChar? b with
    | some a, some b =>
      let n := 10 * a.val + b.val
      if n < bound then
        set cs
        return n
      else failure
    | _, _ => failure
  | _ => failure

/-- The sign of an offset: plus, minus, or the typographic minus. -/
def sign : Reader Int := do
  match ← get with
  | '+' :: cs =>
    set cs
    return 1
  | '-' :: cs | '\u2212' :: cs =>
    set cs
    return -1
  | _ => failure

/-- The seconds by which the time of an offset is ahead of universal time.  An offset is less
than a day. -/
def offset : Reader Int := do
  match ← get with
  | 'Z' :: cs | 'z' :: cs =>
    set cs
    return 0
  | u :: t :: c :: cs =>
    if u.toUpper = 'U' ∧ t.toUpper = 'T' ∧ c.toUpper = 'C' then
      set cs
      return 0
    else
      let sign ← sign
      let hours ← pair 100
      modify (List.dropWhile fun c => c == ':' || isBlank c)
      let minutes ← pair 60
      if hours < 24 then return sign * (3600 * hours + 60 * minutes) else failure
  | _ => failure

end Reader

/-- The instant that a text writes, if the timeline has it. -/
def ofText? (s : String) : Option Instant := do
  let reader : Reader (Date × Nat × { nanos : Nat // nanos < 2000000000 } × Int) := do
    let date ← Reader.date
    Reader.separator
    let (second, nanos) ← Reader.time
    Reader.blanks
    let offset ← Reader.offset
    Reader.blanks
    return (date, second, nanos, offset)
  let ((date, second, nanos, offset), rest) ← reader s.toList
  if rest ≠ [] then none
  let there : Instant := ⟨86400 * date.toDayNumber + second, nanos.1, nanos.2⟩
  let t : Instant := ⟨there.seconds - offset, nanos.1, nanos.2⟩
  if there.inRange && t.inRange then some t else none

end Instant

end TransferQueue
