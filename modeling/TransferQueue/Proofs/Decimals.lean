import TransferQueue.Double.Shortest
import Mathlib.Algebra.Order.Field.Power
import Mathlib.Data.Rat.Cast.Order
import Mathlib.Tactic.FieldSimp
import Mathlib.Tactic.Linarith
import Mathlib.Tactic.NormNum
import Mathlib.Tactic.Positivity
import Mathlib.Tactic.Ring

/-!
# Decimals of doubles

The shortest decimal of a double is one of the numbers that are rounded to the double.  So it is not
nought unless the double is, and it exceeds the double by at most half a unit of its mantissa.

* `Magnitude.Covers`: the numbers that are rounded to a magnitude;
* `Scaled.digits_ne_zero_shortest`, `Scaled.covers_shortest`: what the shortest decimal is.
-/

namespace TransferQueue

namespace Scaled

variable {x : Magnitude} {d : Scaled}

/-- Nought rounds to nothing but nought. -/
theorem digits_ne_zero_of_roundsTo (hx : x.mantissa ≠ 0) (h : d.roundsTo x = true) :
    d.digits ≠ 0 := by
  intro hzero
  have hlow : 0 < 4 * x.mantissa - (if x.narrowBelow then 1 else 2) := by split <;> omega
  have hpos : ∀ (n : Nat) (i j : Int), 0 < n → compareBinary 0 i n j = .lt := by
    intro n i j hn
    rw [compareBinary, Nat.compare_eq_lt]
    simp only [Nat.zero_mul]
    exact Nat.mul_pos (Nat.mul_pos hn (Nat.pow_pos (by omega))) (Nat.pow_pos (by omega))
  rw [roundsTo, hzero, hpos _ _ _ hlow] at h
  simp at h

theorem digits_ne_zero_dropZeros {digits : Nat} (h : digits ≠ 0) (exponent : Int) :
    (dropZeros digits exponent).digits ≠ 0 := by
  fun_induction dropZeros digits exponent with
  | case1 digits exponent hzeros ih => exact ih (by omega)
  | case2 digits exponent hzeros => exact h

/-- What is found on a grid is a decimal of that grid, and rounds to the double. -/
theorem roundsTo_of_onGrid? {exponent : Int} (h : onGrid? x exponent = some d) :
    d.roundsTo x = true := by
  rw [onGrid?] at h
  dsimp only at h
  split at h
  · rename_i hbelow habove
    rwa [← Option.some.inj h]
  · rename_i hbelow habove
    rwa [← Option.some.inj h]
  · exact absurd h (by simp)
  · rename_i hbelow habove
    split at h
    · rwa [← Option.some.inj h]
    · rwa [← Option.some.inj h]
    · rw [← Option.some.inj h]
      split
      · exact hbelow
      · exact habove

/-- The shortest decimal is, but for zeros at its end, one that rounds to the double, or the exact
value of the double. -/
theorem shortest_cases (hx : x.mantissa ≠ 0) :
    (∃ d : Scaled, d.roundsTo x = true ∧ shortest x = dropZeros d.digits d.exponent)
      ∨ shortest x = dropZeros
          (x.mantissa * Nat.pow 2 x.exponent.toNat * Nat.pow 5 (-x.exponent).toNat)
          (min x.exponent 0) := by
  rw [shortest, if_neg hx]
  -- the cases do not depend on where the search for the leading power ends
  generalize leadingPower x 640 (-324) = k
  dsimp only
  split
  · rename_i d hfound
    obtain ⟨n, -, hgrid⟩ := List.exists_of_findSome?_eq_some hfound
    exact .inl ⟨d, roundsTo_of_onGrid? hgrid, rfl⟩
  · exact .inr rfl

/-- The decimal of a double is nought only if the double is. -/
theorem digits_ne_zero_shortest (hx : x.mantissa ≠ 0) : (shortest x).digits ≠ 0 := by
  rcases shortest_cases hx with ⟨d, hd, hshortest⟩ | hshortest
  · rw [hshortest]
    exact digits_ne_zero_dropZeros (digits_ne_zero_of_roundsTo hx hd) _
  · rw [hshortest]
    refine digits_ne_zero_dropZeros ?_ _
    exact Nat.mul_ne_zero (Nat.mul_ne_zero hx (Nat.pow_pos (by omega)).ne')
      (Nat.pow_pos (by omega)).ne'

end Scaled

/-! ## The numbers that are rounded to a double -/

namespace Magnitude

/-- How far the numbers below a magnitude that are rounded to it reach, in units of its mantissa. -/
def reachBelow (x : Magnitude) : ℚ := if x.narrowBelow then 1 / 4 else 1 / 2

/-- A number is rounded to a magnitude: it is at most half a unit away, and less than that if the mantissa
is odd. -/
structure Covers (x : Magnitude) (v : ℚ) : Prop where
  above : v / 2 ^ x.exponent ≤ x.mantissa + 1 / 2
  below : x.mantissa - x.reachBelow ≤ v / 2 ^ x.exponent
  even : v / 2 ^ x.exponent = x.mantissa + 1 / 2 ∨ v / 2 ^ x.exponent = x.mantissa - x.reachBelow →
    x.mantissa % 2 = 0

variable (x : Magnitude)

theorem reachBelow_pos : 0 < x.reachBelow := by
  rw [reachBelow]
  split <;> norm_num

/-- A magnitude covers itself. -/
theorem covers_self : x.Covers (x.mantissa * 2 ^ x.exponent) := by
  have hvalue : (x.mantissa * 2 ^ x.exponent / 2 ^ x.exponent : ℚ) = x.mantissa :=
    mul_div_cancel_right₀ _ (zpow_ne_zero _ (by norm_num))
  have hreach := x.reachBelow_pos
  constructor
  · rw [hvalue]
    linarith
  · rw [hvalue]
    linarith
  · rw [hvalue]
    rintro (h | h) <;> linarith

end Magnitude

namespace Scaled

/-- The number that a decimal stands for. -/
def rat (d : Scaled) : ℚ := d.digits * 10 ^ d.exponent

theorem zpow_mul_toNat_neg {b : ℚ} (hb : b ≠ 0) (i : Int) : b ^ i * b ^ (-i).toNat = b ^ i.toNat := by
  rw [← zpow_natCast, ← zpow_natCast, ← zpow_add₀ hb]
  congr 1
  omega

/-- A comparison in natural numbers is one of the rational numbers that they stand for. -/
theorem compareBinary_eq (a : Nat) (i : Int) (n : Nat) (j : Int) :
    compareBinary a i n j = compare (a * 10 ^ i : ℚ) (n * 2 ^ j) := by
  have hscale : (0 : ℚ) < 10 ^ (-i).toNat * 2 ^ (-j).toNat := by positivity
  have hleft : ((a * 10 ^ i.toNat * 2 ^ (-j).toNat : Nat) : ℚ)
      = a * 10 ^ i * (10 ^ (-i).toNat * 2 ^ (-j).toNat) := by
    have hpow := zpow_mul_toNat_neg (show (10 : ℚ) ≠ 0 by norm_num) i
    push_cast
    rw [← hpow]
    ring
  have hright : ((n * 2 ^ j.toNat * 10 ^ (-i).toNat : Nat) : ℚ)
      = n * 2 ^ j * (10 ^ (-i).toNat * 2 ^ (-j).toNat) := by
    have hpow := zpow_mul_toNat_neg (show (2 : ℚ) ≠ 0 by norm_num) j
    push_cast
    rw [← hpow]
    ring
  simp only [compareBinary, Nat.pow_eq]
  rcases lt_trichotomy (a * 10 ^ i : ℚ) (n * 2 ^ j) with hlt | heq | hgt
  · rw [compare_lt_iff_lt.2 hlt, Nat.compare_eq_lt, ← Nat.cast_lt (α := ℚ), hleft, hright]
    exact mul_lt_mul_of_pos_right hlt hscale
  · rw [compare_eq_iff_eq.2 heq, Nat.compare_eq_eq, ← Nat.cast_inj (R := ℚ), hleft, hright, heq]
  · rw [compare_gt_iff_gt.2 hgt, Nat.compare_eq_gt, ← Nat.cast_lt (α := ℚ), hleft, hright]
    exact mul_lt_mul_of_pos_right hgt hscale

theorem rat_dropZeros (digits : Nat) (exponent : Int) :
    (dropZeros digits exponent).rat = digits * 10 ^ exponent := by
  fun_induction dropZeros digits exponent with
  | case1 digits exponent hzeros ih =>
    have hsplit : (digits : ℚ) = 10 * (digits / 10 : Nat) := by
      exact_mod_cast (Nat.mul_div_cancel' (Nat.dvd_of_mod_eq_zero hzeros.2)).symm
    rw [ih, hsplit, zpow_add₀ (by norm_num)]
    ring
  | case2 digits exponent hzeros => rfl

/-- A decimal that the search accepts is rounded to the magnitude. -/
theorem covers_of_roundsTo {x : Magnitude} {d : Scaled} (hx : x.mantissa ≠ 0) (h : d.roundsTo x = true) :
    x.Covers d.rat := by
  have hpos : (0 : ℚ) < 2 ^ x.exponent := zpow_pos (by norm_num) _
  have hquarter : (2 : ℚ) ^ (x.exponent - 2) = 2 ^ x.exponent / 4 := by
    rw [zpow_sub₀ (by norm_num)]
    norm_num
  have hlow : ((4 * x.mantissa - (if x.narrowBelow then 1 else 2) : Nat) : ℚ) * 2 ^ (x.exponent - 2)
      = (x.mantissa - x.reachBelow) * 2 ^ x.exponent := by
    rw [hquarter, Magnitude.reachBelow]
    split <;> rw [Nat.cast_sub (by omega)] <;> push_cast <;> ring
  have hhigh : ((4 * x.mantissa + 2 : Nat) : ℚ) * 2 ^ (x.exponent - 2)
      = (x.mantissa + 1 / 2) * 2 ^ x.exponent := by
    rw [hquarter]
    push_cast
    ring
  simp only [roundsTo, compareBinary_eq, hlow, hhigh, Bool.and_eq_true, Bool.or_eq_true, beq_iff_eq,
    compare_gt_iff_gt, compare_lt_iff_lt, compare_eq_iff_eq] at h
  change (_ < d.rat ∨ _ ∧ d.rat = _) ∧ (d.rat < _ ∨ _ ∧ d.rat = _) at h
  rw [← lt_div_iff₀ hpos, ← div_lt_iff₀ hpos, ← div_eq_iff hpos.ne', ← div_eq_iff hpos.ne'] at h
  obtain ⟨hbelow, habove⟩ := h
  constructor
  · rcases habove with hlt | ⟨-, heq⟩
    · exact hlt.le
    · exact heq.le
  · rcases hbelow with hlt | ⟨-, heq⟩
    · exact hlt.le
    · exact heq.ge
  · rintro (heq | heq)
    · rcases habove with hlt | ⟨heven, -⟩
      · exact absurd heq hlt.ne
      · exact heven
    · rcases hbelow with hlt | ⟨heven, -⟩
      · exact absurd heq hlt.ne'
      · exact heven

/-- The shortest decimal of a double is rounded to it. -/
theorem covers_shortest {x : Magnitude} (hx : x.mantissa ≠ 0) : x.Covers (shortest x).rat := by
  rcases shortest_cases hx with ⟨d, hd, hshortest⟩ | hshortest
  · rw [hshortest, rat_dropZeros]
    exact covers_of_roundsTo hx hd
  · have hexact : (shortest x).rat = x.mantissa * 2 ^ x.exponent := by
      rw [hshortest, rat_dropZeros]
      simp only [Nat.pow_eq]
      rcases le_total 0 x.exponent with hnonneg | hneg
      · obtain ⟨n, hn⟩ := Int.eq_ofNat_of_zero_le hnonneg
        rw [hn]
        simp
      · obtain ⟨n, hn⟩ : ∃ n : Nat, x.exponent = -n := ⟨(-x.exponent).toNat, by omega⟩
        have hten : (10 : ℚ) ^ n = 2 ^ n * 5 ^ n := by
          rw [← mul_pow]
          norm_num
        rw [hn, min_eq_left (by omega), zpow_neg, zpow_neg, zpow_natCast, zpow_natCast, hten]
        simp
        field_simp
    rw [hexact]
    exact x.covers_self

end Scaled

end TransferQueue
