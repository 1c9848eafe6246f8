/-!
# Decimal digits

Numbers are read from digits and written as digits in several places of this library: JSON
numbers, dates and the text of doubles.  A digit is a number below ten; a number is written
without superfluous leading zeros, or padded with zeros to a fixed width.

* `Digit.ofChar?_toChar`: a written digit reads back;
* `Digit.value_ofNat`: the digits of a number have that number as their value.
-/

namespace TransferQueue

/-- A decimal digit. -/
abbrev Digit := Fin 10

namespace Digit

/-- The digit nought. -/
def zero : Digit := 0

/-- The character that writes a digit. -/
def toChar (d : Digit) : Char := Char.ofNat (48 + d.val)

/-- The digit that a character writes, if it writes one; only the ten ASCII digits do. -/
def ofChar? (c : Char) : Option Digit :=
  if h : 48 ≤ c.toNat ∧ c.toNat < 58 then some ⟨c.toNat - 48, by omega⟩ else none

theorem ofChar?_toChar (d : Digit) : ofChar? (toChar d) = some d := by
  revert d; decide

/-- The digits at the front of a text, and what follows them. -/
def span : List Char → List Digit × List Char
  | [] => ([], [])
  | c :: cs =>
    match ofChar? c with
    | some d => (d :: (span cs).1, (span cs).2)
    | none => ([], c :: cs)

/-- The number that digits write, the most significant one first. -/
def value (ds : List Digit) : Nat := ds.foldl (fun n d => 10 * n + d.val) 0

/-- The digits of a number, the most significant one first; zero has one digit. -/
def ofNat (n : Nat) : List Digit :=
  if h : n < 10 then [⟨n, h⟩] else ofNat (n / 10) ++ [⟨n % 10, Nat.mod_lt n (by decide)⟩]

/-- The digits of a number with zeros in front, so that there are at least `width`. -/
def ofNatPadded (width n : Nat) : List Digit :=
  List.replicate (width - (ofNat n).length) zero ++ ofNat n

/-- The text of a list of digits. -/
def text (ds : List Digit) : List Char := ds.map toChar

/-! ## Reading back -/

theorem value_append_singleton (ds : List Digit) (d : Digit) :
    value (ds ++ [d]) = 10 * value ds + d.val := by
  simp [value]

theorem value_ofNat (n : Nat) : value (ofNat n) = n := by
  induction n using Nat.strongRecOn with
  | _ n ih =>
    rw [ofNat]
    split
    · simp [value]
    · rename_i h
      rw [value_append_singleton, ih (n / 10) (by omega)]
      simp only
      omega

/-- Written digits are read up to the first character that is none. -/
theorem span_text_append (ds : List Digit) {rest : List Char}
    (h : ∀ c ∈ rest.head?, ofChar? c = none) : span (text ds ++ rest) = (ds, rest) := by
  induction ds with
  | nil =>
    cases rest with
    | nil => rfl
    | cons c cs => simp [text, span, h c (by simp)]
  | cons d ds ih =>
    have ih : span (ds.map toChar ++ rest) = (ds, rest) := ih
    simp [text, span, ofChar?_toChar, ih]

/-- Each character is counted once, as a digit or in what follows the digits. -/
theorem length_span (cs : List Char) :
    (span cs).1.length + (span cs).2.length = cs.length := by
  induction cs with
  | nil => simp [span]
  | cons c cs ih =>
    rw [span]
    split
    · simp only [List.length_cons]; omega
    · simp

end Digit

end TransferQueue
