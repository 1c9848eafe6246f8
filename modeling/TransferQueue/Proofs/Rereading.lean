import TransferQueue.Json.Value
import TransferQueue.Proofs.Digits
import TransferQueue.Proofs.Literals
import TransferQueue.Proofs.Scaling

/-!
# Doubles that are written and read

A double is written as the shortest decimal that is rounded to it.  When it is read, the digits and the
power of ten are rounded before they are multiplied, so another double may come out.  But it is never too
large, and it is the same double if the decimal is short.

* `Json.reread?`: what becomes of a double;
* `Json.isSome_reread?`: a finite double becomes a finite one;
* `Json.reread?_of_short`: a double with a short decimal is kept.
-/

namespace TransferQueue

open Float.Model Float.Model.UnpackedFloat

/-! ## Reading digits -/

namespace Reading

variable {n : Nat} {ds : List Digit}

theorem lt_of_mul_pow_add_lt (h : n * 10 ^ ds.length + Digit.value ds < bound) : n < bound := by
  have hle : n * 1 ≤ n * 10 ^ ds.length := Nat.mul_le_mul_left _ (Nat.one_le_pow _ _ (by decide))
  omega

/-- Digits that fit are all appended. -/
theorem appendWhole_of_lt (h : n * 10 ^ ds.length + Digit.value ds < bound) :
    appendWhole n ds = (n * 10 ^ ds.length + Digit.value ds, 0) := by
  induction ds generalizing n with
  | nil => simp [appendWhole, Digit.value]
  | cons d ds ih =>
    rw [Digit.mul_pow_add_value_cons] at h ⊢
    rw [appendWhole, if_pos (lt_of_mul_pow_add_lt h), ih h]

theorem appendFraction_of_lt (h : n * 10 ^ ds.length + Digit.value ds < bound) :
    appendFraction n ds = (n * 10 ^ ds.length + Digit.value ds, ds.length) := by
  induction ds generalizing n with
  | nil => simp [appendFraction, Digit.value]
  | cons d ds ih =>
    rw [Digit.mul_pow_add_value_cons] at h ⊢
    rw [appendFraction, if_pos (lt_of_mul_pow_add_lt h), ih h]
    rfl

/-- However many digits fit, they are the first ones. -/
theorem appendFraction_le (hn : n < bound) (ds : List Digit) :
    (appendFraction n ds).1 < bound ∧ (appendFraction n ds).2 ≤ ds.length
      ∧ (appendFraction n ds).1 * 10 ^ (ds.length - (appendFraction n ds).2)
        ≤ n * 10 ^ ds.length + Digit.value ds := by
  induction ds generalizing n with
  | nil => simpa [appendFraction, Digit.value] using hn
  | cons d ds ih =>
    rw [appendFraction]
    split
    · rename_i hfits
      obtain ⟨hbound, hcount, hle⟩ := ih hfits
      refine ⟨hbound, ?_, ?_⟩
      · simpa using hcount
      · rw [Digit.mul_pow_add_value_cons]
        simpa using hle
    · refine ⟨hn, Nat.zero_le _, ?_⟩
      simp

/-- The number that digits before and behind the point and a power of ten stand for. -/
def rat (whole fraction : List Digit) (exponent : Int) : ℚ :=
  Digit.value (whole ++ fraction) * 10 ^ (exponent - fraction.length)

variable {whole fraction : List Digit} {exponent : Int}

theorem appendWhole_zero (h : Digit.value ds < bound) : appendWhole 0 ds = (Digit.value ds, 0) := by
  have happend := @appendWhole_of_lt 0 ds (by simpa using h)
  simpa using happend

/-- Digits whose number is far enough from the end of the doubles stand for a double. -/
theorem isSome_float? (hwhole : Digit.value whole < bound)
    (hx : rat whole fraction exponent ≤ readLimit) :
    (float? whole fraction exponent).isSome := by
  obtain ⟨hbound, hcount, hle⟩ := appendFraction_le hwhole fraction
  rw [float?, appendWhole_zero hwhole]
  dsimp only
  refine isSome_scale? hbound (le_trans ?_ hx)
  generalize appendFraction (Digit.value whole) fraction = p at hcount hle
  obtain ⟨n, count⟩ := p
  -- the digits that were passed over are made up for by the exponent
  have hexponent : exponent + (0 : Nat) - count
      = (exponent - fraction.length) + (fraction.length - count : Nat) := by omega
  have hle' : (n : ℚ) * 10 ^ (fraction.length - count) ≤ Digit.value (whole ++ fraction) := by
    rw [Digit.value_append]
    exact_mod_cast hle
  calc (n : ℚ) * 10 ^ (exponent + (0 : Nat) - count)
      = n * 10 ^ (fraction.length - count) * 10 ^ (exponent - fraction.length) := by
        rw [hexponent, zpow_add₀ (by norm_num), zpow_natCast]
        ring
    _ ≤ rat whole fraction exponent := mul_le_mul_of_nonneg_right hle' (by positivity)

/-- Digits that all fit in a mantissa stand for their number, rounded once. -/
theorem rounds_float? {k : Nat} (hpos : 0 < Digit.value (whole ++ fraction))
    (hbits : Digit.value (whole ++ fraction) < 2 ^ 53) (hk : 0 < k) (hk' : k ≤ 22)
    (hexponent : exponent - fraction.length = -k) :
    ∃ t r f, float? whole fraction exponent = some (.ofModel (.pack f))
      ∧ Rounds .positive (rat whole fraction exponent) t r f := by
  obtain ⟨t, r, f, hscale, hrounds⟩ := rounds_scale? hpos hbits hk hk'
  refine ⟨t, r, f, ?_, ?_⟩
  · rw [Digit.value_append] at hbits
    have hfits := hbits.trans (show 2 ^ 53 < bound by decide)
    have hwhole := lt_of_mul_pow_add_lt hfits
    rw [float?, appendWhole_zero hwhole]
    dsimp only
    rw [appendFraction_of_lt hfits, ← Digit.value_append]
    dsimp only
    rw [show exponent + (0 : Nat) - fraction.length = -k by omega]
    exact hscale
  · rw [rat, hexponent, zpow_neg, zpow_natCast, ← div_eq_mul_inv]
    exact hrounds

end Reading

/-! ## Literals of decimals -/

namespace Json.Numeral

/-- The power of ten that a literal writes. -/
def scale (n : Numeral) : Int := (n.exponent.map Exponent.toInt).getD 0

/-- A literal writes the digits of a decimal with some zeros behind them. -/
structure Writes (n : Numeral) (d : Scaled) (zeros : Nat) : Prop where
  digits : Digit.value (n.whole ++ n.fraction) = d.digits * 10 ^ zeros
  scale : n.scale - n.fraction.length = d.exponent - zeros
  whole : n.whole.length ≤ 16

theorem Writes.rat_eq {n : Numeral} {d : Scaled} {zeros : Nat} (h : Writes n d zeros) :
    Reading.rat n.whole n.fraction n.scale = d.rat := by
  have hten : (10 : ℚ) ^ zeros ≠ 0 := pow_ne_zero _ (by norm_num)
  rw [Reading.rat, h.digits, h.scale, zpow_sub₀ (by norm_num), zpow_natCast, Scaled.rat]
  push_cast
  field_simp

theorem Writes.value_whole_lt {n : Numeral} {d : Scaled} {zeros : Nat} (h : Writes n d zeros) :
    Digit.value n.whole < Reading.bound :=
  calc Digit.value n.whole < 10 ^ n.whole.length := Digit.value_lt _
    _ ≤ 10 ^ 16 := Nat.pow_le_pow_right (by decide) h.whole
    _ < Reading.bound := by decide

theorem toInt_ofInt (n : Int) : (Exponent.ofInt n).toInt = n := by
  simp only [Exponent.ofInt, Exponent.toInt, Digit.value_ofNat, decide_eq_true_eq]
  split <;> omega

section Places

variable {d : Scaled} {digits : List Digit} (hvalue : Digit.value digits = d.digits) (negative : Bool)

include hvalue

/-- The leading digit is written before the point, and an exponent. -/
theorem writes_exponential (hlength : 0 < digits.length) :
    Writes ⟨negative, digits.take 1, digits.drop 1, some (.ofInt (d.exponent + digits.length - 1))⟩ d
      0 where
  digits := by rw [List.take_append_drop, hvalue, pow_zero, Nat.mul_one]
  scale := by
    simp only [scale, Option.map_some, Option.getD_some, toInt_ofInt, List.length_drop]
    omega
  whole := by
    simp only [List.length_take]
    omega

/-- A zero is written before the point, and zeros behind it. -/
theorem writes_below (hplace : d.exponent + digits.length - 1 < 0) :
    Writes ⟨negative, [Digit.zero],
      List.replicate (-(d.exponent + digits.length - 1) - 1).toNat Digit.zero ++ digits, none⟩ d 0 where
  digits := by
    rw [Digit.value_append, Digit.value_append, Digit.value_replicate_zero, hvalue]
    simp [Digit.value, Digit.zero]
  scale := by
    simp only [scale, Option.map_none, Option.getD_none, List.length_append, List.length_replicate]
    omega
  whole := by simp

/-- Digits are written before the point and behind it. -/
theorem writes_mixed {place : Nat} (hplace : d.exponent + digits.length - 1 = place) (hlt : place < 16)
    (hneg : d.exponent < 0) :
    Writes ⟨negative, digits.take (place + 1), digits.drop (place + 1), none⟩ d 0 where
  digits := by rw [List.take_append_drop, hvalue, pow_zero, Nat.mul_one]
  scale := by
    simp only [scale, Option.map_none, Option.getD_none, List.length_drop]
    omega
  whole := by
    simp only [List.length_take]
    omega

/-- All digits are written before the point, with as many zeros as there are places, and a zero behind
it. -/
theorem writes_whole (hplace : d.exponent + digits.length - 1 < 16) (hnonneg : 0 ≤ d.exponent) :
    Writes ⟨negative, digits ++ List.replicate d.exponent.toNat Digit.zero, [Digit.zero], none⟩ d
      (d.exponent.toNat + 1) where
  digits := by
    rw [Digit.value_append, Digit.value_append, Digit.value_replicate_zero, hvalue, List.length_replicate,
      pow_succ, ← Nat.mul_assoc]
    simp [Digit.value, Digit.zero]
  scale := by
    simp only [scale, Option.map_none, Option.getD_none, List.length_singleton]
    omega
  whole := by
    simp only [List.length_append, List.length_replicate]
    omega

end Places

/-- A literal of a decimal writes it.  Zeros are written behind its digits only before a point that all of
them stand before; a whole number that has no point then has more than sixteen places. -/
theorem writes_ofScaled (negative : Bool) {d : Scaled} (hd : d.digits ≠ 0) :
    (Writes (ofScaled negative d) d 0 ∧ (0 ≤ d.exponent → 10 ^ 16 ≤ d.digits * 10 ^ d.exponent.toNat))
      ∨ 0 ≤ d.exponent ∧ Writes (ofScaled negative d) d (d.exponent.toNat + 1) := by
  have hlength : 0 < (Digit.ofNat d.digits).length := List.length_pos_iff.2 (Digit.ofNat_ne_nil _)
  have hpow := Digit.pow_le_of_length_ofNat hd
  have hvalue := Digit.value_ofNat d.digits
  rw [ofScaled]
  generalize Digit.ofNat d.digits = digits at hlength hpow hvalue
  dsimp only
  split
  · rename_i hplace
    refine .inl ⟨writes_exponential hvalue negative hlength, fun hnonneg => ?_⟩
    calc 10 ^ 16 ≤ 10 ^ (digits.length - 1 + d.exponent.toNat) :=
          Nat.pow_le_pow_right (by decide) (by omega)
      _ = 10 ^ (digits.length - 1) * 10 ^ d.exponent.toNat := pow_add ..
      _ ≤ d.digits * 10 ^ d.exponent.toNat := Nat.mul_le_mul_right _ hpow
  split
  · rename_i hplace hbelow
    exact .inl ⟨writes_below hvalue negative hbelow, fun hnonneg => by omega⟩
  · rename_i hplace hnotBelow
    obtain ⟨place, hplace'⟩ : ∃ place : Nat, d.exponent + digits.length - 1 = place :=
      ⟨(d.exponent + digits.length - 1).toNat, by omega⟩
    rw [hplace', Int.toNat_natCast]
    rcases lt_or_ge d.exponent 0 with hneg | hnonneg
    · have hfraction : (digits.drop (place + 1)).isEmpty = false := by
        rw [List.isEmpty_eq_false_iff, ne_eq, List.drop_eq_nil_iff]
        omega
      rw [show d.exponent.toNat = 0 by omega, List.replicate_zero, List.append_nil, hfraction]
      exact .inl ⟨writes_mixed hvalue negative hplace' (by omega) hneg, fun hnonneg => by omega⟩
    · have hall : (digits ++ List.replicate d.exponent.toNat Digit.zero).length ≤ place + 1 := by
        rw [List.length_append, List.length_replicate]
        omega
      rw [List.drop_of_length_le hall, List.take_of_length_le hall]
      exact .inr ⟨hnonneg, writes_whole hvalue negative (by omega) hnonneg⟩

theorem negative_ofScaled (negative : Bool) (d : Scaled) : (ofScaled negative d).negative = negative := by
  rw [ofScaled]
  dsimp only
  split
  · rfl
  · split <;> rfl

/-- A decimal that is far enough from the end of the doubles stands for a double. -/
theorem isSome_toFloat?_ofScaled (negative : Bool) {d : Scaled} (hd : d.digits ≠ 0)
    (hx : d.rat ≤ Reading.readLimit) : (ofScaled negative d).toFloat?.isSome := by
  obtain ⟨zeros, hwrites⟩ : ∃ zeros, Writes (ofScaled negative d) d zeros := by
    rcases writes_ofScaled negative hd with ⟨hwrites, -⟩ | ⟨-, hwrites⟩
    · exact ⟨_, hwrites⟩
    · exact ⟨_, hwrites⟩
  rw [toFloat?, Option.isSome_map]
  refine Reading.isSome_float? hwrites.value_whole_lt ?_
  exact hwrites.rat_eq.trans_le hx

end Json.Numeral

/-- A decimal with at most twenty-two places whose digits, and one more, fit in a mantissa. -/
def Scaled.IsShort (d : Scaled) : Prop :=
  -22 ≤ d.exponent ∧ 10 * (d.digits * 10 ^ d.exponent.toNat) < 2 ^ 53

instance (d : Scaled) : Decidable d.IsShort := inferInstanceAs (Decidable (_ ∧ _))

namespace Json.Numeral

/-- A short decimal is read with one rounding. -/
theorem toFloat?_ofScaled_of_short (negative : Bool) {d : Scaled} (hd : d.digits ≠ 0) (h : d.IsShort) :
    ∃ t r f, (ofScaled negative d).toFloat?
        = some (if negative then -.ofModel (.pack f) else .ofModel (.pack f))
      ∧ Rounds .positive d.rat t r f := by
  obtain ⟨hplaces, hbits⟩ := h
  -- whether or not a zero is written behind the digits, some places are left to divide by
  obtain ⟨zeros, k, hwrites, hbits', hk, hk', hexponent⟩ : ∃ (zeros k : Nat),
      Writes (ofScaled negative d) d zeros ∧ d.digits * 10 ^ zeros < 2 ^ 53 ∧ 0 < k ∧ k ≤ 22
        ∧ d.exponent - zeros = -k := by
    rcases writes_ofScaled negative hd with ⟨hwrites, hlarge⟩ | ⟨hnonneg, hwrites⟩
    · have hneg : d.exponent < 0 := by
        by_contra hnonneg
        have := hlarge (by omega)
        omega
      rw [show d.exponent.toNat = 0 by omega] at hbits
      exact ⟨0, (-d.exponent).toNat, hwrites, by omega, by omega, by omega, by omega⟩
    · refine ⟨_, 1, hwrites, ?_, by decide, by decide, by omega⟩
      rw [pow_succ, ← Nat.mul_assoc]
      omega
  have hpos : 0 < d.digits * 10 ^ zeros :=
    Nat.mul_pos (Nat.pos_of_ne_zero hd) (Nat.pow_pos (by decide))
  rw [← hwrites.digits] at hpos hbits'
  obtain ⟨t, r, f, hread, hrounds⟩ :=
    Reading.rounds_float? hpos hbits' hk hk' (hwrites.scale.trans hexponent)
  refine ⟨t, r, f, ?_, hwrites.rat_eq ▸ hrounds⟩
  show (Reading.float? _ _ (ofScaled negative d).scale).map _ = _
  rw [hread, negative_ofScaled]
  rfl

end Json.Numeral

/-! ## Doubles -/

namespace Magnitude

variable {x : Magnitude} {v : ℚ}

theorem reachBelow_le (x : Magnitude) : x.reachBelow ≤ 1 / 2 := by
  rw [reachBelow]
  split <;> norm_num

/-- A covered number with the same exponent is rounded to the same mantissa. -/
theorem Covers.rounds_of_le (hv : x.Covers v) (hm : 0 < x.mantissa)
    (hcanonical : IsCanonical x.mantissa x.exponent)
    (hle : x.exponent = -1074 ∨ 2 ^ 52 ≤ v / 2 ^ x.exponent) (sign : Sign) :
    Rounds sign v x.exponent x.mantissa (.finite sign x.mantissa x.exponent hm) := by
  have habove := hv.above
  have hbelow := hv.below
  have hreach := x.reachBelow_le
  have hpos := two_zpow_pos x.exponent
  have hbits : (x.mantissa : ℚ) + 1 ≤ 2 ^ 53 := by exact_mod_cast hcanonical.lt
  refine ⟨hcanonical.least, ?_, fun hne => ?_, ⟨?_, fun hhalf => ?_⟩, ?_⟩
  · have hlt : v / 2 ^ x.exponent < 2 ^ 53 := by linarith
    rw [div_lt_iff₀ hpos, mul_comm, ← two_zpow_add] at hlt
    exact hlt
  · have hge := hle.resolve_left hne
    rw [le_div_iff₀ hpos, mul_comm, ← two_zpow_add] at hge
    exact hge
  · rw [abs_le]
    constructor <;> linarith
  · rcases (abs_eq (by norm_num)).1 hhalf with hhigh | hlow
    · exact hv.even (.inl (by linarith))
    · exact hv.even (.inr (by linarith))
  · rw [carry, dif_neg hm.ne', if_pos hcanonical.lt]

/-- A covered number with a smaller exponent is below the least mantissa that has all its bits, and nearer
to it than to the numbers below. -/
theorem Covers.rounds_of_lt (hv : x.Covers v) (hm : 0 < x.mantissa)
    (hcanonical : IsCanonical x.mantissa x.exponent)
    (hnarrow : x.mantissa = 2 ^ 52 → x.exponent ≠ -1074 → x.narrowBelow = true)
    (hexponent : x.exponent ≠ -1074) (hlt : v / 2 ^ x.exponent < 2 ^ 52) (sign : Sign) :
    Rounds sign v (x.exponent - 1) (2 ^ 53) (.finite sign x.mantissa x.exponent hm) := by
  have hpos := two_zpow_pos x.exponent
  have hleast := hcanonical.least
  have hfull := hcanonical.full.resolve_right hexponent
  have hmantissa : x.mantissa = 2 ^ 52 := by
    have hbelow := hv.below
    have hreach := x.reachBelow_le
    have hlt' : (x.mantissa : ℚ) < 2 ^ 52 + 1 := by linarith
    have hlt'' : x.mantissa < 2 ^ 52 + 1 := by exact_mod_cast hlt'
    omega
  have hquarter : (2 : ℚ) ^ 52 - 1 / 4 ≤ v / 2 ^ x.exponent := by
    have hbelow := hv.below
    rw [reachBelow, if_pos (hnarrow hmantissa hexponent), hmantissa] at hbelow
    exact_mod_cast hbelow
  have hdouble : v / 2 ^ (x.exponent - 1) = 2 * (v / 2 ^ x.exponent) := by
    rw [zpow_sub₀ (by norm_num), zpow_one]
    field_simp
  refine ⟨by omega, ?_, fun _ => ?_, ⟨?_, fun _ => by decide⟩, ?_⟩
  · rw [div_lt_iff₀ hpos, mul_comm, ← two_zpow_add] at hlt
    rw [show x.exponent - 1 + 53 = x.exponent + (52 : Nat) by omega]
    exact hlt
  · have hge : (2 : ℚ) ^ 51 ≤ v / 2 ^ x.exponent := by linarith
    rw [le_div_iff₀ hpos, mul_comm, ← two_zpow_add] at hge
    rw [show x.exponent - 1 + 52 = x.exponent + (51 : Nat) by omega]
    exact hge
  · rw [hdouble, abs_le]
    push_cast
    constructor <;> linarith
  · rw [carry, dif_neg (by decide), if_neg (by decide)]
    congr 1
    omega

/-- A number that a magnitude covers is rounded to it. -/
theorem Covers.rounds (hv : x.Covers v) (hm : 0 < x.mantissa)
    (hcanonical : IsCanonical x.mantissa x.exponent)
    (hnarrow : x.mantissa = 2 ^ 52 → x.exponent ≠ -1074 → x.narrowBelow = true) (sign : Sign) :
    ∃ t r, Rounds sign v t r (.finite sign x.mantissa x.exponent hm) := by
  by_cases hle : x.exponent = -1074 ∨ 2 ^ 52 ≤ v / 2 ^ x.exponent
  · exact ⟨_, _, hv.rounds_of_le hm hcanonical hle sign⟩
  · rw [not_or, not_le] at hle
    exact ⟨_, _, hv.rounds_of_lt hm hcanonical hnarrow hle.1 hle.2 sign⟩

/-- But for the greatest two magnitudes, a covered number is far enough from the end of the doubles. -/
theorem Covers.le_of_not_greatest (hv : x.Covers v) (hcanonical : IsCanonical x.mantissa x.exponent)
    (hend : ¬ (x.exponent = 971 ∧ 2 ^ 53 - 2 ≤ x.mantissa)) :
    v ≤ Reading.readLimit := by
  have hlt := hcanonical.lt
  have habove := hv.above
  rw [div_le_iff₀ (two_zpow_pos _)] at habove
  refine habove.trans ?_
  rw [Reading.readLimit]
  rcases hcanonical.greatest.lt_or_eq with hsmall | hlast
  · have hbits : (x.mantissa : ℚ) + 1 ≤ 2 ^ 53 := by exact_mod_cast hlt
    have hsplit : (2 : ℚ) ^ (971 : Int) = 2 ^ (970 : Int) * 2 := two_zpow_add 970 1
    calc ((x.mantissa : ℚ) + 1 / 2) * 2 ^ x.exponent
        ≤ (2 ^ 53 - 1 / 2) * 2 ^ (970 : Int) :=
          mul_le_mul (by linarith) (zpow_le_zpow_right₀ (by norm_num) (by omega)) (two_zpow_pos _).le
            (by norm_num)
      _ ≤ (2 ^ 53 - 5 / 2) * 2 * 2 ^ (970 : Int) :=
          mul_le_mul_of_nonneg_right (by norm_num) (two_zpow_pos _).le
      _ = (2 ^ 53 - 5 / 2) * 2 ^ (971 : Int) := by
          rw [hsplit]
          ring
  · have hbits : (x.mantissa : ℚ) ≤ 2 ^ 53 - 3 := by
      have hle : x.mantissa + 3 ≤ 2 ^ 53 := by omega
      have hcast : (x.mantissa : ℚ) + 3 ≤ 2 ^ 53 := by exact_mod_cast hle
      linarith
    rw [hlast]
    exact mul_le_mul_of_nonneg_right (by linarith) (two_zpow_pos _).le

end Magnitude

namespace Json

/-- What becomes of a double that is written and read. -/
def reread? (x : Float) : Option Float := (Value.ofFloat x).float?

theorem reread?_of_ofFloat? {x : Float} {m : Magnitude} (h : Magnitude.ofFloat? x = some m) :
    reread? x = (Numeral.ofScaled (isSigned x) (Scaled.shortest m)).toFloat? := by
  rw [reread?, Value.ofFloat, Numeral.ofFloat?, h]
  rfl

/-- Nought is kept, with its sign. -/
theorem reread?_zero {x : Float} {m : Magnitude} (h : Magnitude.ofFloat? x = some m) (hm : m.mantissa = 0) :
    reread? x = some x := by
  have hunpack : x.toModel.unpack = .zero (signOf x) := by
    rcases Magnitude.unpack_of_ofFloat? h with ⟨-, hzero⟩ | ⟨⟨hpos, -⟩, -⟩
    · exact hzero
    · exact absurd hm hpos.ne'
  have hread : ∀ negative, (Numeral.ofScaled negative ⟨0, 0⟩).toFloat?
      = some (.ofModel (.pack (.zero (if negative then .negative else .positive)))) := by
    decide +kernel
  rw [reread?_of_ofFloat? h, Scaled.shortest, if_pos hm, hread, ← signOf_eq, ← hunpack, pack_unpack_model]

/-- The greatest two doubles, too, become finite ones. -/
theorem isSome_toFloat?_greatest : ∀ negative narrowBelow, ∀ i : Fin 2,
    (Numeral.ofScaled negative
      (Scaled.shortest ⟨2 ^ 53 - 1 - i.val, 971, narrowBelow⟩)).toFloat?.isSome = true := by
  decide +kernel

/-- A finite double becomes a finite one. -/
theorem isSome_reread? {x : Float} (h : (Magnitude.ofFloat? x).isSome) : (reread? x).isSome := by
  obtain ⟨m, hm⟩ := Option.isSome_iff_exists.1 h
  rcases Magnitude.unpack_of_ofFloat? hm with ⟨hzero, -⟩ | ⟨⟨hpos, -⟩, hcanonical, -⟩
  · rw [reread?_zero hm hzero]
    rfl
  rw [reread?_of_ofFloat? hm]
  by_cases hend : m.exponent = 971 ∧ 2 ^ 53 - 2 ≤ m.mantissa
  · have hlt := hcanonical.lt
    obtain ⟨mantissa, exponent, narrowBelow⟩ := m
    obtain ⟨rfl, hmantissa⟩ := hend
    dsimp only at hlt hmantissa
    have hgreat := isSome_toFloat?_greatest (isSigned x) narrowBelow ⟨2 ^ 53 - 1 - mantissa, by omega⟩
    rwa [show 2 ^ 53 - 1 - (2 ^ 53 - 1 - mantissa) = mantissa by omega] at hgreat
  · refine Numeral.isSome_toFloat?_ofScaled _ (Scaled.digits_ne_zero_shortest hpos.ne') ?_
    exact (Scaled.covers_shortest hpos.ne').le_of_not_greatest hcanonical hend

/-- A double with a short decimal is kept. -/
theorem reread?_of_short {x : Float} {m : Magnitude} (h : Magnitude.ofFloat? x = some m)
    (hshort : (Scaled.shortest m).IsShort) : reread? x = some x := by
  rcases Magnitude.unpack_of_ofFloat? h with ⟨hzero, -⟩ | ⟨⟨hpos, hunpack⟩, hcanonical, hnarrow⟩
  · exact reread?_zero h hzero
  obtain ⟨t, r, f, hread, hrounds⟩ :=
    Numeral.toFloat?_ofScaled_of_short (isSigned x) (Scaled.digits_ne_zero_shortest hpos.ne') hshort
  -- the decimal is rounded to the double that it was written for
  obtain ⟨t', r', hrounds'⟩ :=
    (Scaled.covers_shortest hpos.ne').rounds hpos hcanonical hnarrow .positive
  obtain rfl := hrounds.unique hrounds'
  rw [reread?_of_ofFloat? h, hread]
  congr 1
  apply eq_of_unpack_eq
  rw [hunpack, signOf_eq]
  split
  · show (Float.Model.pack (Float.Model.pack _).unpack.neg).unpack = _
    rw [unpack_pack hpos hcanonical]
    exact unpack_pack hpos hcanonical
  · exact unpack_pack hpos hcanonical

/-- With sixteen digits and twenty-three places, both roundings count. -/
example : reread? 9.391670189485867e-8 = some 9.391670189485868e-8 := by decide +kernel

/-- An infinite double, or what is no number, is not read again. -/
theorem reread?_of_not_finite {x : Float} (h : Magnitude.ofFloat? x = none) : reread? x = none := by
  rw [reread?, Value.ofFloat, Numeral.ofFloat?, h]
  rfl

end Json

end TransferQueue
