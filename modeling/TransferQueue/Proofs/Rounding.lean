import Mathlib

/-!
# The rounding of doubles

The result of an operation on doubles is the double nearest to the exact result, and of two that are
equally near the one with the even mantissa.  The operations get there by shifting mantissas, with
two bits for what is lost on the way.

* `IsNearest`: a natural number that is nearest to a rational one;
* `Approximates`: what a mantissa and the two bits behind it say of a rational number;
* `Rounds`: a number and the double that it is rounded to;
* `rounds_mul`, `rounds_div`, `rounds_ofNat`: what the operations give.
-/

namespace TransferQueue

open Float.Model Float.Model.UnpackedFloat

/-! ## Nearest numbers -/

/-- A natural number is nearest to `x`, and even if another one is as near. -/
structure IsNearest (n : Nat) (x : ℚ) : Prop where
  near : |x - n| ≤ 1 / 2
  even : |x - n| = 1 / 2 → n % 2 = 0

namespace IsNearest

variable {n m : Nat} {x : ℚ}

theorem le_add (h : IsNearest n x) : (n : ℚ) ≤ x + 1 / 2 := by
  have := (abs_le.1 h.near).1
  linarith

theorem sub_le (h : IsNearest n x) : x - 1 / 2 ≤ n := by
  have := (abs_le.1 h.near).2
  linarith

theorem le_of_lt (h : IsNearest n x) (hx : x < m + 1 / 2) : n ≤ m := by
  have hlt : (n : ℚ) < m + 1 := by linarith [h.le_add]
  have hlt' : n < m + 1 := by exact_mod_cast hlt
  omega

theorem le_of_le (h : IsNearest n x) (hx : (m : ℚ) ≤ x) : m ≤ n := by
  have hlt : (m : ℚ) < n + 1 := by linarith [h.sub_le]
  have hlt' : m < n + 1 := by exact_mod_cast hlt
  omega

/-- Two nearest numbers would be neighbours, and both even. -/
theorem unique (h : IsNearest n x) (h' : IsNearest m x) : n = m := by
  wlog hlt : n < m generalizing n m
  · rcases Nat.lt_or_ge m n with hgt | hge
    · exact (this h' h hgt).symm
    · omega
  have hcast : (n : ℚ) + 1 ≤ m := by exact_mod_cast hlt
  have hle := h'.le_add
  have hge := h.sub_le
  have hx : x = n + 1 / 2 := by linarith
  have hm : (m : ℚ) = n + 1 := by linarith
  have hm' : m = n + 1 := by exact_mod_cast hm
  have heven : n % 2 = 0 := h.even (by rw [hx]; norm_num)
  have heven' : m % 2 = 0 := h'.even (by rw [hx, hm]; norm_num)
  omega

/-- A natural number is nearest to itself. -/
theorem self (n : Nat) : IsNearest n (n : ℚ) := ⟨by norm_num, by norm_num⟩

end IsNearest

/-! ## Mantissas -/

/-- What the two bits behind a mantissa say of the fraction that is lost: how it compares with one
half, and whether it is nought. -/
def Residue : Bool → Bool → ℚ → Prop
  | false, false, f => f = 0
  | false, true, f => 0 < f ∧ f < 1 / 2
  | true, false, f => f = 1 / 2
  | true, true, f => 1 / 2 < f ∧ f < 1

theorem Residue.nonneg {round sticky : Bool} {f : ℚ} (h : Residue round sticky f) : 0 ≤ f ∧ f < 1 := by
  cases round <;> cases sticky <;> simp only [Residue] at h
  · rw [h]; norm_num
  · exact ⟨h.1.le, by linarith [h.2]⟩
  · rw [h]; norm_num
  · exact ⟨by linarith [h.1], h.2⟩

/-- When a bit is shifted out, it is the first one behind the mantissa, and the two bits behind it make
one. -/
theorem Residue.shift {round sticky : Bool} {f : ℚ} (h : Residue round sticky f) (bit : Bool) :
    Residue bit (round || sticky) ((bit.toNat + f) / 2) := by
  cases round <;> cases sticky <;> cases bit <;> simp only [Residue] at h <;>
    simp only [Residue, Bool.or_false, Bool.or_true, Bool.toNat_false, Bool.toNat_true, Nat.cast_zero,
      Nat.cast_one]
  · linarith
  · linarith
  all_goals constructor <;> linarith

/-- The mantissa is the whole part of `x`, and the two bits behind it tell of the fraction. -/
structure Approximates (em : ExtendedMantissa) (x : ℚ) : Prop where
  residue : Residue em.roundBit em.stickyBit (x - em.mantissa)

namespace Approximates

variable {em : ExtendedMantissa} {x : ℚ}

theorem le (h : Approximates em x) : (em.mantissa : ℚ) ≤ x := by linarith [h.residue.nonneg.1]

theorem lt (h : Approximates em x) : x < em.mantissa + 1 := by linarith [h.residue.nonneg.2]

theorem shiftRightOne (h : Approximates em x) : Approximates em.shiftRightOne (x / 2) where
  residue := by
    have hbit : (em.mantissa % 2 != 0).toNat = em.mantissa % 2 := by
      rcases Nat.mod_two_eq_zero_or_one em.mantissa with hbit | hbit <;> rw [hbit] <;> rfl
    have hsplit : (em.mantissa : ℚ) = 2 * (em.mantissa / 2 : Nat) + (em.mantissa % 2 : Nat) := by
      exact_mod_cast (Nat.div_add_mod em.mantissa 2).symm
    have hshift := h.residue.shift (em.mantissa % 2 != 0)
    rw [hbit] at hshift
    have hhalf : x / 2 - (em.mantissa / 2 : Nat)
        = ((em.mantissa % 2 : Nat) + (x - em.mantissa)) / 2 := by
      rw [hsplit]
      ring
    show Residue _ _ (x / 2 - (em.mantissa / 2 : Nat))
    rw [hhalf]
    exact hshift

theorem shiftRight (h : Approximates em x) (n : Nat) : Approximates (em >>> n) (x / 2 ^ n) := by
  induction n with
  | zero =>
    rw [pow_zero, div_one]
    exact h
  | succ n ih =>
    have hstep := ih.shiftRightOne
    rwa [div_div, ← pow_succ] at hstep

/-- The rounded mantissa is the nearest number. -/
theorem isNearest (h : Approximates em x) : IsNearest em.roundedMantissa x := by
  obtain ⟨m, round, sticky⟩ := em
  have hres := h.residue
  dsimp only at hres
  cases round <;> cases sticky <;> simp only [Residue] at hres
  · -- exact
    have hx : x = m := by linarith
    rw [hx]
    exact .self m
  · -- below one half
    refine ⟨?_, fun heq => ?_⟩
    · show |x - (m : ℚ)| ≤ 1 / 2
      rw [abs_of_pos hres.1]
      exact hres.2.le
    · exfalso
      have heq' : |x - (m : ℚ)| = 1 / 2 := heq
      rw [abs_of_pos hres.1] at heq'
      linarith [hres.2]
  · -- one half
    have heven : (m + m % 2) % 2 = 0 := by omega
    refine ⟨?_, fun _ => heven⟩
    show |x - ((m + m % 2 : Nat) : ℚ)| ≤ 1 / 2
    rcases Nat.mod_two_eq_zero_or_one m with hbit | hbit <;> rw [hbit] <;> push_cast
    · rw [abs_le]
      constructor <;> linarith
    · rw [abs_le]
      constructor <;> linarith
  · -- above one half
    have hneg : x - ((m + 1 : Nat) : ℚ) < 0 := by
      push_cast
      linarith [hres.2]
    refine ⟨?_, fun heq => ?_⟩
    · show |x - ((m + 1 : Nat) : ℚ)| ≤ 1 / 2
      rw [abs_of_neg hneg]
      push_cast
      linarith [hres.1]
    · exfalso
      have heq' : |x - ((m + 1 : Nat) : ℚ)| = 1 / 2 := heq
      rw [abs_of_neg hneg] at heq'
      push_cast at heq'
      linarith [hres.1]

/-- A mantissa that nothing is lost of. -/
theorem of_exact (m : Nat) : Approximates (.ofMantissaAndAccuracy m .exact) m where
  residue := by
    show (m : ℚ) - m = 0
    ring

/-- A quotient and what the remainder says of its accuracy. -/
theorem of_fraction (a : Nat) {b : Nat} (hb : 0 < b) :
    Approximates (.ofMantissaAndAccuracy (a / b) (accuracyOfFraction (a % b) b)) (a / b : ℚ) := by
  have hpos : (0 : ℚ) < b := by exact_mod_cast hb
  have hsplit : (a : ℚ) = b * (a / b : Nat) + (a % b : Nat) := by
    exact_mod_cast (Nat.div_add_mod a b).symm
  have hfraction : (a / b : ℚ) - (a / b : Nat) = (a % b : Nat) / b := by
    field_simp
    linarith
  have hlt : a % b < b := Nat.mod_lt a hb
  constructor
  rw [accuracyOfFraction]
  split
  · rename_i hzero
    show (a / b : ℚ) - (a / b : Nat) = 0
    rw [hfraction, hzero]
    simp
  · rename_i hne
    have hrest : (0 : ℚ) < (a % b : Nat) := by exact_mod_cast Nat.pos_of_ne_zero hne
    rcases hcompare : compare (2 * (a % b)) b with _ | _ | _
    · rw [Nat.compare_eq_lt] at hcompare
      have hcast : (2 : ℚ) * (a % b : Nat) < b := by exact_mod_cast hcompare
      show 0 < (a / b : ℚ) - (a / b : Nat) ∧ (a / b : ℚ) - (a / b : Nat) < 1 / 2
      rw [hfraction]
      refine ⟨by positivity, ?_⟩
      rw [div_lt_div_iff₀ hpos (by norm_num)]
      linarith
    · rw [Nat.compare_eq_eq] at hcompare
      have hcast : (2 : ℚ) * (a % b : Nat) = b := by exact_mod_cast hcompare
      show (a / b : ℚ) - (a / b : Nat) = 1 / 2
      rw [hfraction, div_eq_div_iff hpos.ne' (by norm_num)]
      linarith
    · rw [Nat.compare_eq_gt] at hcompare
      have hcast : (b : ℚ) < 2 * (a % b : Nat) := by exact_mod_cast hcompare
      have hcast' : ((a % b : Nat) : ℚ) < b := by exact_mod_cast hlt
      show 1 / 2 < (a / b : ℚ) - (a / b : Nat) ∧ (a / b : ℚ) - (a / b : Nat) < 1
      rw [hfraction]
      constructor
      · rw [div_lt_div_iff₀ (by norm_num) hpos]
        linarith
      · rw [div_lt_one hpos]
        exact hcast'

end Approximates

/-! ## Rounding -/

/-- The double `r * 2 ^ t`, for a mantissa that may have become one bit too long. -/
def carry (sign : Sign) (r : Nat) (t : Int) : UnpackedFloat :=
  if h : r = 0 then .zero sign
  else if r < 2 ^ 53 then .finite sign r t (Nat.pos_of_ne_zero h)
  else .finite sign (2 ^ 52) (t + 1) (by decide)

/-- The number `x` is rounded to `f`: its nearest multiple of `2 ^ t`, where `t` leaves it 53 bits or is
the least exponent there is. -/
structure Rounds (sign : Sign) (x : ℚ) (t : Int) (r : Nat) (f : UnpackedFloat) : Prop where
  least : -1074 ≤ t
  lt : x < 2 ^ (t + 53)
  le : t ≠ -1074 → 2 ^ (t + 52) ≤ x
  nearest : IsNearest r (x / 2 ^ t)
  eq : f = carry sign r t

theorem two_zpow_pos (t : Int) : (0 : ℚ) < 2 ^ t := zpow_pos (by norm_num) t

theorem two_zpow_add (t : Int) (n : Nat) : (2 : ℚ) ^ (t + n) = 2 ^ t * 2 ^ n := by
  rw [zpow_add₀ (by norm_num), zpow_natCast]

namespace Rounds

variable {sign : Sign} {x : ℚ} {t t' : Int} {r r' : Nat} {f f' : UnpackedFloat}

/-- The exponent is determined by the number. -/
theorem exponent_le (h : Rounds sign x t r f) (h' : Rounds sign x t' r' f') : t' ≤ t := by
  by_contra hlt
  have hne : t' ≠ -1074 := by
    have := h.least
    omega
  have hpow : (2 : ℚ) ^ (t + 53) ≤ 2 ^ (t' + 52) :=
    zpow_le_zpow_right₀ (by norm_num) (by omega)
  linarith [h.lt, h'.le hne]

/-- A number is rounded to one double. -/
theorem unique (h : Rounds sign x t r f) (h' : Rounds sign x t' r' f') : f = f' := by
  obtain rfl : t = t' := Int.le_antisymm (h'.exponent_le h) (h.exponent_le h')
  obtain rfl : r = r' := h.nearest.unique h'.nearest
  rw [h.eq, h'.eq]

/-- The mantissa has at most one bit too many. -/
theorem le_two_pow (h : Rounds sign x t r f) : r ≤ 2 ^ 53 := by
  refine h.nearest.le_of_lt ?_
  have hlt : x / 2 ^ t < 2 ^ 53 := by
    rw [div_lt_iff₀ (two_zpow_pos t), mul_comm, ← two_zpow_add]
    exact h.lt
  push_cast
  linarith

end Rounds

theorem targetExponent_eq (m : Nat) (e : Int) :
    Format.binary64.targetExponent (totalExponent m e) = max (m.log2 + e - 52) (-1074) := by
  simp only [Format.targetExponent, totalExponent, Format.mantissaBits, Format.minExponent]
  omega

/-- Bits of a mantissa that has no more than 53 of them are not shifted out. -/
theorem shiftToTargetExponent_of_lt {m : Nat} {e : Int} (hm : m < 2 ^ 53) (he : -1074 ≤ e) :
    shiftToTargetExponent .binary64 m e .exact = (⟨m, false, false⟩, e) := by
  have hlog : m.log2 ≤ 52 := by
    rcases Nat.eq_zero_or_pos m with rfl | hpos
    · decide
    · have := (Nat.log2_lt hpos.ne').2 hm
      omega
  have hshift : (max (m.log2 + e - 52) (-1074) - e).toNat = 0 := by omega
  simp only [shiftToTargetExponent, targetExponent_eq, shiftToExponent, hshift]
  simp [ExtendedMantissa.ofMantissaAndAccuracy, HShiftRight.hShiftRight, Nat.repeat]

/-- One bit is, when a mantissa has become too long. -/
theorem shiftToTargetExponent_two_pow {e : Int} (he : -1074 ≤ e) :
    shiftToTargetExponent .binary64 (2 ^ 53) e .exact = (⟨2 ^ 52, false, false⟩, e + 1) := by
  have hshift : (max ((2 ^ 53 : Nat).log2 + e - 52) (-1074) - e).toNat = 1 := by
    rw [Nat.log2_two_pow]
    omega
  simp only [shiftToTargetExponent, targetExponent_eq, shiftToExponent, hshift]
  rfl

theorem mantissa_ofMantissaAndAccuracy (m : Nat) (accuracy : Accuracy) :
    (ExtendedMantissa.ofMantissaAndAccuracy m accuracy).mantissa = m := by
  rcases accuracy with _ | (_ | _ | _) <;> rfl

/-- What is left of a mantissa that has been rounded is carried. -/
theorem roundWithAccuracy_eq_carry (sign : Sign) {m : Nat} {e : Int} {accuracy : Accuracy}
    {em : ExtendedMantissa} {t : Int} (hshift : shiftToTargetExponent .binary64 m e accuracy = (em, t))
    (ht : -1074 ≤ t) (hr : em.roundedMantissa ≤ 2 ^ 53) :
    roundWithAccuracy .binary64 sign m e accuracy = carry sign em.roundedMantissa t := by
  rcases Nat.lt_or_ge em.roundedMantissa (2 ^ 53) with hlt | hge
  · have hcarry := shiftToTargetExponent_of_lt hlt ht
    simp only [roundWithAccuracy, hshift, hcarry, carry, if_pos hlt]
  · have heq : em.roundedMantissa = 2 ^ 53 := by omega
    have hcarry : shiftToTargetExponent .binary64 em.roundedMantissa t .exact
        = (⟨2 ^ 52, false, false⟩, t + 1) := by
      rw [heq]
      exact shiftToTargetExponent_two_pow ht
    have hresult : carry sign em.roundedMantissa t = .finite sign (2 ^ 52) (t + 1) (by decide) := by
      rw [heq]
      rfl
    rw [hresult]
    simp only [roundWithAccuracy, hshift, hcarry]
    rfl

section Known

variable {m : Nat} {e : Int} {accuracy : Accuracy} {x : ℚ}
  (hx : Approximates (.ofMantissaAndAccuracy m accuracy) (x / 2 ^ e))

include hx

/-- A number has as many bits as the mantissa that it is known by. -/
theorem lt_two_zpow_of_approximates : x < 2 ^ (e + (m.log2 + 1 : Nat)) := by
  have hlt := hx.lt
  rw [mantissa_ofMantissaAndAccuracy] at hlt
  have hbits : m + 1 ≤ 2 ^ (m.log2 + 1) := Nat.lt_log2_self
  have hbits' : (m : ℚ) + 1 ≤ 2 ^ (m.log2 + 1) := by exact_mod_cast hbits
  rw [two_zpow_add, mul_comm, ← div_lt_iff₀ (two_zpow_pos e)]
  exact hlt.trans_le hbits'

theorem two_zpow_le_of_approximates (hm : m ≠ 0) : 2 ^ (e + (m.log2 : Nat)) ≤ x := by
  have hle := hx.le
  rw [mantissa_ofMantissaAndAccuracy] at hle
  have hbits : (2 : ℚ) ^ m.log2 ≤ m := by exact_mod_cast Nat.log2_self_le hm
  rw [two_zpow_add, mul_comm, ← le_div_iff₀ (two_zpow_pos e)]
  exact hbits.trans hle

/-- A number that is known by a mantissa and its accuracy is rounded. -/
theorem rounds_roundWithAccuracy (sign : Sign) (he : e ≤ max (m.log2 + e - 52) (-1074)) :
    ∃ t r, Rounds sign x t r (roundWithAccuracy .binary64 sign m e accuracy) := by
  -- nothing has to be shifted back to reach the exponent of the result
  obtain ⟨s, hs⟩ : ∃ s : Nat, max (m.log2 + e - 52) (-1074) = e + s :=
    ⟨(max (m.log2 + e - 52) (-1074) - e).toNat, by omega⟩
  have hshift : shiftToTargetExponent .binary64 m e accuracy
      = (ExtendedMantissa.ofMantissaAndAccuracy m accuracy >>> s, e + s) := by
    have hcount : (max (m.log2 + e - 52) (-1074) - e).toNat = s := by omega
    simp only [shiftToTargetExponent, targetExponent_eq, shiftToExponent, hcount]
  have hnearest : IsNearest (ExtendedMantissa.ofMantissaAndAccuracy m accuracy >>> s).roundedMantissa
      (x / 2 ^ (e + s)) := by
    rw [two_zpow_add, ← div_div]
    exact (hx.shiftRight s).isNearest
  have hlt : x < 2 ^ (e + s + 53) :=
    (lt_two_zpow_of_approximates hx).trans_le (zpow_le_zpow_right₀ (by norm_num) (by push_cast; omega))
  have hle : e + s ≠ -1074 → 2 ^ (e + s + 52) ≤ x := by
    intro hne
    have hm : m ≠ 0 := by
      rintro rfl
      rw [Nat.log2_zero] at hs he
      omega
    rw [show e + s + 52 = e + (m.log2 : Nat) by omega]
    exact two_zpow_le_of_approximates hx hm
  have hrounds : Rounds sign x (e + s) _ _ := ⟨by omega, hlt, hle, hnearest, rfl⟩
  refine ⟨e + s, (ExtendedMantissa.ofMantissaAndAccuracy m accuracy >>> s).roundedMantissa, ?_⟩
  rw [roundWithAccuracy_eq_carry sign hshift hrounds.least hrounds.le_two_pow]
  exact hrounds

end Known

/-! ## Operations -/

/-- A product of two mantissas of which one has all its bits. -/
theorem rounds_mul (sign sign' : Sign) {m m' : Nat} (e e' : Int) (hm : 0 < m) (hm' : 0 < m')
    (hbits : 2 ^ 52 ≤ m * m') :
    ∃ t r, Rounds (sign * sign') (m * 2 ^ e * (m' * 2 ^ e')) t r
      (UnpackedFloat.mul .binary64 (.finite sign m e hm) (.finite sign' m' e' hm')) := by
  refine rounds_roundWithAccuracy ?_ (sign * sign') ?_
  · have hx : (m * 2 ^ e * (m' * 2 ^ e') : ℚ) / 2 ^ (e + e') = (m * m' : Nat) := by
      rw [zpow_add₀ (by norm_num), div_eq_iff (mul_pos (two_zpow_pos e) (two_zpow_pos e')).ne']
      push_cast
      ring
    rw [hx]
    exact .of_exact _
  · have hlog : 52 ≤ (m * m').log2 := (Nat.le_log2 (by omega)).2 hbits
    omega

/-- A quotient has all the bits of a mantissa, if its dividend is long enough. -/
theorem le_log2_div {m m' : Nat} (n : Nat) (hm : 0 < m) (hm' : 0 < m')
    (h : m'.log2 + 53 ≤ m.log2 + n) : 52 ≤ (m * 2 ^ n / m').log2 := by
  have hbits : 2 ^ 52 ≤ m * 2 ^ n / m' := by
    rw [Nat.le_div_iff_mul_le hm']
    calc 2 ^ 52 * m' ≤ 2 ^ 52 * 2 ^ (m'.log2 + 1) := Nat.mul_le_mul_left _ Nat.lt_log2_self.le
      _ = 2 ^ (52 + (m'.log2 + 1)) := (pow_add 2 52 (m'.log2 + 1)).symm
      _ ≤ 2 ^ (m.log2 + n) := Nat.pow_le_pow_right (by decide) (by omega)
      _ = 2 ^ m.log2 * 2 ^ n := by rw [pow_add]
      _ ≤ m * 2 ^ n := Nat.mul_le_mul_right _ (Nat.log2_self_le hm.ne')
  exact (Nat.le_log2 (by omega)).2 hbits

/-- A quotient is known to enough bits. -/
theorem rounds_div (sign sign' : Sign) {m m' : Nat} (e e' : Int) (hm : 0 < m) (hm' : 0 < m') :
    ∃ t r, Rounds (sign / sign') (m * 2 ^ e / (m' * 2 ^ e')) t r
      (UnpackedFloat.div .binary64 (.finite sign m e hm) (.finite sign' m' e' hm')) := by
  have htarget : Format.binary64.targetExponent (totalExponent m e - totalExponent m' e')
      = max (m.log2 + e - (m'.log2 + e') - 53) (-1074) := by
    simp only [Format.targetExponent, totalExponent, Format.mantissaBits, Format.minExponent]
    omega
  simp only [UnpackedFloat.div, divCore, htarget]
  -- the dividend is made longer by as many bits as the exponent has to go down
  generalize hT : min (e - e') (max (m.log2 + e - (m'.log2 + e') - 53) (-1074)) = T
  obtain ⟨n, hn⟩ : ∃ n : Nat, e - e' = T + n := ⟨(e - e' - T).toNat, by omega⟩
  have hcount : (e - e' - T).toNat = n := by omega
  rw [hcount, Nat.shiftLeft_eq]
  have hpos : (0 : ℚ) < m' := by exact_mod_cast hm'
  refine rounds_roundWithAccuracy ?_ (sign / sign') ?_
  · have hx : (m * 2 ^ e / (m' * 2 ^ e') : ℚ) / 2 ^ T = (m * 2 ^ n : Nat) / m' := by
      have hsplit : (2 : ℚ) ^ e = 2 ^ T * 2 ^ n * 2 ^ e' := by
        rw [← two_zpow_add, ← hn, ← zpow_add₀ (by norm_num), Int.sub_add_cancel]
      have hT' := (two_zpow_pos T).ne'
      have he' := (two_zpow_pos e').ne'
      rw [hsplit]
      push_cast
      field_simp
    rw [hx]
    exact .of_fraction _ hm'
  · rcases le_or_gt T (-1074) with hle | hgt
    · exact hle.trans (le_max_right _ _)
    · have hlog := le_log2_div n hm hm' (by omega)
      omega

/-- A natural number is known to all its bits. -/
theorem rounds_ofNat {n : Nat} (hn : 0 < n) :
    ∃ t r, Rounds .positive n t r (UnpackedFloat.ofNat .binary64 n) := by
  have hnormalize : UnpackedFloat.ofNat .binary64 n = UnpackedFloat.round .binary64 .positive n 0 := by
    have hcompare : compare (n : Int) 0 = .gt := Int.compare_eq_gt.2 (by omega)
    simp only [UnpackedFloat.ofNat, UnpackedFloat.ofInt, UnpackedFloat.normalize, hcompare, Int.toNat_natCast]
  rw [hnormalize]
  simp only [UnpackedFloat.round, targetExponent_eq, decreaseExponent]
  generalize hk : ((0 : Int) - max ((n.log2 : Int) + 0 - 52) (-1074)).toNat = k
  rw [Nat.shiftLeft_eq]
  refine rounds_roundWithAccuracy ?_ .positive ?_
  · have hx : (n : ℚ) / 2 ^ ((0 : Int) - k) = (n * 2 ^ k : Nat) := by
      rw [zero_sub, zpow_neg, zpow_natCast, div_inv_eq_mul]
      push_cast
      rfl
    rw [hx]
    exact .of_exact _
  · have hlog : n.log2 + k ≤ (n * 2 ^ k).log2 := by
      rw [Nat.le_log2 (by positivity), pow_add]
      exact Nat.mul_le_mul_right _ (Nat.log2_self_le hn.ne')
    omega

end TransferQueue
