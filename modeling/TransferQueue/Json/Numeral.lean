import TransferQueue.Digit
import TransferQueue.Double.Reading
import TransferQueue.Double.Shortest

/-!
# Numbers as JSON writes them

A numeral keeps the digits of a JSON number as they stand, so that whole numbers are exact at any
size and the sign of zero is not lost.  It can be read as an integer, which only a literal without
a point and an exponent is, or as a double.

Doubles are written with the fewest digits that read back: positionally while the leading digit
stands between the fifth place after the point and the sixteenth place before it, otherwise with
an exponent.

* `Numeral.toInt?_ofInt` and `Numeral.toInt?_ofNat`: the literal of a number stands for it;
* `Numeral.text` writes a literal and `Numeral.read?` reads it, which makes the rest of the text
  shorter by `Numeral.length_lt_of_read?`.
-/

namespace TransferQueue

namespace Json

/-- The exponent of a numeral. -/
structure Exponent where
  /-- Whether a minus sign precedes the digits. -/
  negative : Bool
  /-- The digits, at least one. -/
  digits : List Digit
deriving DecidableEq, Repr

/-- A number literal. -/
structure Numeral where
  /-- Whether the literal starts with a minus sign. -/
  negative : Bool
  /-- The digits before the point, at least one. -/
  whole : List Digit
  /-- The digits after the point; none if there is no point. -/
  fraction : List Digit
  /-- What follows the letter `e`. -/
  exponent : Option Exponent
deriving DecidableEq, Repr

namespace Exponent

/-- The exponent that stands for an integer. -/
def ofInt (n : Int) : Exponent := ⟨n < 0, Digit.ofNat n.natAbs⟩

/-- The integer that an exponent stands for. -/
def toInt (e : Exponent) : Int :=
  if e.negative then -(Digit.value e.digits : Int) else Digit.value e.digits

/-- The text of an exponent; its sign is always written. -/
def text (e : Exponent) : List Char :=
  'e' :: (if e.negative then '-' else '+') :: Digit.text e.digits

end Exponent

namespace Numeral

/-! ## Integers -/

/-- The literal of an integer. -/
def ofInt (n : Int) : Numeral := ⟨n < 0, Digit.ofNat n.natAbs, [], none⟩

/-- The literal of a natural number. -/
def ofNat (n : Nat) : Numeral := ⟨false, Digit.ofNat n, [], none⟩

/-- The integer that a literal stands for.  A literal with a point or an exponent stands for
none, and neither does zero with a minus sign. -/
def toInt? (n : Numeral) : Option Int :=
  if n.fraction.isEmpty && n.exponent.isNone then
    let value := Digit.value n.whole
    if n.negative then if value = 0 then none else some (-(value : Int)) else some value
  else none

theorem toInt?_ofInt (n : Int) : (ofInt n).toInt? = some n := by
  simp only [ofInt, toInt?, Digit.value_ofNat, List.isEmpty_nil, Option.isNone_none, Bool.and_self,
    if_true]
  by_cases h : n < 0
  · have h0 : ¬ n.natAbs = 0 := by omega
    simp only [h, decide_true, if_true, h0, if_false, Option.some.injEq]
    omega
  · simp only [h, decide_false, Bool.false_eq_true, if_false, Option.some.injEq]
    omega

theorem toInt?_ofNat (n : Nat) : (ofNat n).toInt? = some (n : Int) := by
  simp [ofNat, toInt?, Digit.value_ofNat]

/-! ## Doubles -/

/-- The double that a literal stands for, if it is within the range of doubles. -/
def toFloat? (n : Numeral) : Option Float :=
  let exponent := (n.exponent.map Exponent.toInt).getD 0
  (Reading.float? n.whole n.fraction exponent).map fun x => if n.negative then -x else x

/-- The literal of a decimal number.  `place` is the power of ten of its leading digit. -/
def ofScaled (negative : Bool) (d : Scaled) : Numeral :=
  let digits := Digit.ofNat d.digits
  let place : Int := d.exponent + digits.length - 1
  if place < -5 ∨ 16 ≤ place then
    ⟨negative, digits.take 1, digits.drop 1, some (Exponent.ofInt place)⟩
  else if place < 0 then
    ⟨negative, [Digit.zero], List.replicate (-place - 1).toNat Digit.zero ++ digits, none⟩
  else
    let padded := digits ++ List.replicate d.exponent.toNat Digit.zero
    let fraction := padded.drop (place.toNat + 1)
    ⟨negative, padded.take (place.toNat + 1), if fraction.isEmpty then [Digit.zero] else fraction,
      none⟩

/-- The literal of a double; what is infinite or not a number has none. -/
def ofFloat? (x : Float) : Option Numeral :=
  (Magnitude.ofFloat? x).map fun m => ofScaled (isSigned x) (Scaled.shortest m)

/-! ## Writing a text -/

/-- The text of a literal. -/
def text (n : Numeral) : List Char :=
  (if n.negative then ['-'] else []) ++ Digit.text n.whole
    ++ (if n.fraction.isEmpty then [] else '.' :: Digit.text n.fraction)
    ++ (match n.exponent with
      | none => []
      | some e => e.text)

/-! ## Reading a text -/

/-- What follows the point of a number: at least one digit.  Without a point there is no
fraction. -/
def readFraction? : List Char → Option (List Digit × List Char)
  | '.' :: cs => if (Digit.span cs).1.isEmpty then none else some (Digit.span cs)
  | cs => some ([], cs)

/-- Whether a minus sign is at the front of an exponent, and what follows its sign. -/
def exponentSign : List Char → Bool × List Char
  | '-' :: cs => (true, cs)
  | '+' :: cs => (false, cs)
  | cs => (false, cs)

/-- The exponent of a number, if it has one: the letter, an optional sign, at least one digit. -/
def readExponent? : List Char → Option (Option Exponent × List Char)
  | c :: cs =>
    if c = 'e' ∨ c = 'E' then
      let (negative, cs) := exponentSign cs
      if (Digit.span cs).1.isEmpty then none
      else some (some ⟨negative, (Digit.span cs).1⟩, (Digit.span cs).2)
    else some (none, c :: cs)
  | [] => some (none, [])

/-- A number after its sign.  A whole part of several digits does not start with zero. -/
def readUnsigned? (negative : Bool) (cs : List Char) : Option (Numeral × List Char) :=
  let (whole, cs) := Digit.span cs
  if whole.isEmpty || (whole.head? == some Digit.zero && whole.length ≠ 1) then none
  else
    match readFraction? cs with
    | none => none
    | some (fraction, cs) =>
      match readExponent? cs with
      | none => none
      | some (exponent, cs) => some (⟨negative, whole, fraction, exponent⟩, cs)

/-- A number at the front of a text, and what follows it. -/
def read? : List Char → Option (Numeral × List Char)
  | '-' :: cs => readUnsigned? true cs
  | cs => readUnsigned? false cs

theorem length_le_of_readFraction? {cs rest : List Char} {ds : List Digit}
    (h : readFraction? cs = some (ds, rest)) : rest.length ≤ cs.length := by
  unfold readFraction? at h
  split at h
  · rename_i cs
    have := Digit.length_span cs
    split at h
    · simp at h
    · rw [Option.some.injEq] at h
      rw [h] at this
      simp only [List.length_cons] at this ⊢
      omega
  · simp only [Option.some.injEq, Prod.mk.injEq] at h
    simp [h.2]

theorem length_exponentSign_le (cs : List Char) :
    (exponentSign cs).2.length ≤ cs.length := by
  unfold exponentSign
  split <;> simp

theorem length_le_of_readExponent? {cs rest : List Char} {e : Option Exponent}
    (h : readExponent? cs = some (e, rest)) : rest.length ≤ cs.length := by
  unfold readExponent? at h
  split at h
  · rename_i c cs
    have hsign := length_exponentSign_le cs
    have hspan := Digit.length_span (exponentSign cs).2
    split at h
    · dsimp only at h
      split at h
      · simp at h
      · simp only [Option.some.injEq, Prod.mk.injEq] at h
        simp only [List.length_cons, ← h.2]
        omega
    · simp only [Option.some.injEq, Prod.mk.injEq] at h
      simp [← h.2]
  · simp only [Option.some.injEq, Prod.mk.injEq] at h
    simp [← h.2]

theorem length_lt_of_readUnsigned? {negative : Bool} {cs rest : List Char} {n : Numeral}
    (h : readUnsigned? negative cs = some (n, rest)) : rest.length < cs.length := by
  unfold readUnsigned? at h
  have hspan := Digit.length_span cs
  dsimp only at h
  split at h
  · simp at h
  rename_i hwhole
  have : (Digit.span cs).1.length ≠ 0 := by
    intro h0
    simp [List.length_eq_zero_iff.1 h0] at hwhole
  split at h
  · simp at h
  rename_i hfraction
  have := length_le_of_readFraction? hfraction
  split at h
  · simp at h
  rename_i hexponent
  have := length_le_of_readExponent? hexponent
  simp only [Option.some.injEq, Prod.mk.injEq] at h
  rw [← h.2]
  omega

theorem length_lt_of_read? {cs rest : List Char} {n : Numeral}
    (h : read? cs = some (n, rest)) : rest.length < cs.length := by
  unfold read? at h
  split at h
  · have := length_lt_of_readUnsigned? h
    simp only [List.length_cons]; omega
  · exact length_lt_of_readUnsigned? h

end Numeral

end Json

end TransferQueue
