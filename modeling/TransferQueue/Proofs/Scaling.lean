import TransferQueue.Double.Reading
import TransferQueue.Proofs.Packing
import TransferQueue.Proofs.Rounding

/-!
# Scaling by powers of ten

A number with at most sixty-four bits is read as a double and then multiplied by a power of ten or
divided by one.  Both factors are rounded, and then the result is.  So it need not be the double nearest
to the exact product, but it is finite unless the exact product is close to the end of the doubles.

* `Reading.powerOfTen_finite`: the powers of ten are doubles, and those up to the twenty-second exact ones;
* `Reading.isSome_scale?`: what is scaled stays finite as long as the exact product is far enough from
  the end of the doubles;
* `Reading.rounds_scale?`: where both factors are exact, the quotient is rounded once.
-/

namespace TransferQueue

open Float.Model Float.Model.UnpackedFloat

/-! ## What rounding gives -/

/-- The least number that is too large for a double: half a unit above the greatest one. -/
def endOfDoubles : ℚ := (2 ^ 53 - 1 / 2) * 2 ^ (971 : Int)

theorem endOfDoubles_lt : endOfDoubles < 2 ^ (1024 : Int) := by
  have hsplit : (2 : ℚ) ^ (1024 : Int) = 2 ^ (971 : Int) * 2 ^ 53 := two_zpow_add 971 53
  rw [endOfDoubles, hsplit, mul_comm]
  exact mul_lt_mul_of_pos_left (by norm_num) (two_zpow_pos 971)

namespace Rounds

variable {sign : Sign} {x : ℚ} {t : Int} {r : Nat} {f : UnpackedFloat}

theorem nearest_le (h : Rounds sign x t r f) : (r : ℚ) * 2 ^ t ≤ x + 2 ^ t / 2 := by
  have hpos := two_zpow_pos t
  have hle := mul_le_mul_of_nonneg_right h.nearest.le_add hpos.le
  rw [add_mul, div_mul_cancel₀ x hpos.ne'] at hle
  linarith

/-- With an exponent that is not the least one, the mantissa has all its bits. -/
theorem two_pow_le (h : Rounds sign x t r f) (ht : t ≠ -1074) : 2 ^ 52 ≤ r := by
  refine h.nearest.le_of_le ?_
  have hle : 2 ^ t * 2 ^ 52 ≤ x := by
    rw [← two_zpow_add]
    exact h.le ht
  rw [le_div_iff₀ (two_zpow_pos t), mul_comm]
  exact_mod_cast hle

theorem exponent_le_of_lt (h : Rounds sign x t r f) (hx : x < endOfDoubles) : t ≤ 971 := by
  by_contra hgt
  have hpow : (2 : ℚ) ^ (1024 : Int) ≤ 2 ^ (t + 52) := zpow_le_zpow_right₀ (by norm_num) (by omega)
  have hle := h.le (by omega)
  linarith [endOfDoubles_lt]

/-- With the greatest exponent, the number is too small for a mantissa that is too long. -/
theorem exponent_lt_of_long (h : Rounds sign x t r f) (hx : x < endOfDoubles) (hr : r = 2 ^ 53) :
    t < 971 := by
  have hle := h.exponent_le_of_lt hx
  by_contra hge
  obtain rfl : t = 971 := by omega
  have hr' : r ≤ 2 ^ 53 - 1 := by
    refine h.nearest.le_of_lt ?_
    rw [div_lt_iff₀ (two_zpow_pos 971)]
    refine hx.trans_eq ?_
    rw [endOfDoubles]
    congr 1
    norm_num
  omega

/-- Below the end of the doubles, the result is nought, or there are bits for it and it has the value
that the number is rounded to. -/
theorem zero_or_finite (h : Rounds sign x t r f) (hx : x < endOfDoubles) :
    (r = 0 ∧ f = .zero sign)
      ∨ ∃ m e hm, f = .finite sign m e hm ∧ IsCanonical m e ∧ (m * 2 ^ e : ℚ) = r * 2 ^ t
        ∧ (2 ^ 52 ≤ r → 2 ^ 52 ≤ m) := by
  have hleast := h.least
  have hgreatest := h.exponent_le_of_lt hx
  have heq := h.eq
  rw [carry] at heq
  split at heq
  · rename_i hzero
    exact .inl ⟨hzero, heq⟩
  · rename_i hne
    right
    split at heq
    · rename_i hshort
      refine ⟨r, t, Nat.pos_of_ne_zero hne, heq, ⟨hshort, hleast, hgreatest, ?_⟩, rfl, id⟩
      by_cases ht : t = -1074
      · exact .inr ht
      · exact .inl (h.two_pow_le ht)
    · rename_i hlong
      have hr : r = 2 ^ 53 := by
        have := h.le_two_pow
        omega
      have hlt := h.exponent_lt_of_long hx hr
      refine ⟨2 ^ 52, t + 1, by decide, heq, ⟨by decide, by omega, by omega, .inl le_rfl⟩, ?_,
        fun _ => le_rfl⟩
      rw [hr, zpow_add₀ (by norm_num)]
      push_cast
      ring

theorem isInf_pack (h : Rounds sign x t r f) (hx : x < endOfDoubles) :
    (Float.Model.pack f).unpack.isInf = false := by
  rcases h.zero_or_finite hx with ⟨-, hzero⟩ | ⟨m, e, hm, hfinite, hcanonical, -⟩
  · rw [hzero, unpack_pack_zero]
    rfl
  · rw [hfinite, unpack_pack hm hcanonical]
    rfl

/-- A number from one on has a mantissa with all its bits, and is rounded up by at most one part in
`2 ^ 53`. -/
theorem finite_of_one_le (h : Rounds sign x t r f) (hone : 1 ≤ x) (hx : x < endOfDoubles) :
    ∃ m e hm, f = .finite sign m e hm ∧ IsCanonical m e ∧ 2 ^ 52 ≤ m ∧ (m * 2 ^ e : ℚ) = r * 2 ^ t
      ∧ (m * 2 ^ e : ℚ) ≤ x * (1 + 1 / 2 ^ 53) := by
  have ht : t ≠ -1074 := by
    rintro rfl
    have hsmall : (2 : ℚ) ^ (-1074 + 53 : Int) ≤ 2 ^ (0 : Int) :=
      zpow_le_zpow_right₀ (by norm_num) (by norm_num)
    rw [zpow_zero] at hsmall
    linarith [h.lt]
  have hr := h.two_pow_le ht
  rcases h.zero_or_finite hx with ⟨hzero, -⟩ | ⟨m, e, hm, hfinite, hcanonical, hvalue, hfull⟩
  · omega
  · refine ⟨m, e, hm, hfinite, hcanonical, hfull hr, hvalue, ?_⟩
    have hunit : 2 ^ t * 2 ^ 52 ≤ x := by
      rw [← two_zpow_add]
      exact h.le ht
    rw [hvalue]
    linarith [h.nearest_le]

/-- A number that there are bits for is not changed. -/
theorem exact (h : Rounds sign x t r f) {m : Nat} {e : Int} (hx : x = m * 2 ^ e) (hm : m < 2 ^ 53)
    (he : -1074 ≤ e) : (r : ℚ) * 2 ^ t = x := by
  have hte : t ≤ e := by
    by_contra hlt
    have hle := h.le (by omega)
    have hm' : (m : ℚ) < 2 ^ 53 := by exact_mod_cast hm
    have hlt' : x < 2 ^ (e + (53 : Nat)) := by
      rw [hx, two_zpow_add, mul_comm]
      exact mul_lt_mul_of_pos_left hm' (two_zpow_pos e)
    have hpow : (2 : ℚ) ^ (e + 53) ≤ 2 ^ (t + 52) := zpow_le_zpow_right₀ (by norm_num) (by omega)
    exact absurd (hlt'.trans_le hpow) (not_lt_of_ge hle)
  obtain ⟨n, rfl⟩ : ∃ n : Nat, e = t + n := ⟨(e - t).toNat, by omega⟩
  have hpos := two_zpow_pos t
  have hquotient : x / 2 ^ t = (m * 2 ^ n : Nat) := by
    rw [hx, two_zpow_add, div_eq_iff hpos.ne']
    push_cast
    ring
  have hr : r = m * 2 ^ n := h.nearest.unique (hquotient ▸ .self _)
  rw [hr, ← hquotient, div_mul_cancel₀ x hpos.ne']

end Rounds

/-! ## Powers of ten -/

namespace Reading

theorem pow_ten_lt_endOfDoubles {k : Nat} (hk : k ≤ 308) : (10 : ℚ) ^ k < endOfDoubles := by
  have hlast : 10 ^ 308 < (2 ^ 53 - 1) * 2 ^ 971 := by decide +kernel
  have hlast' : (10 : ℚ) ^ 308 < (2 ^ 53 - 1 : Nat) * 2 ^ (971 : Nat) := by
    have hcast := (Nat.cast_lt (α := ℚ)).2 hlast
    rwa [Nat.cast_mul, Nat.cast_pow, Nat.cast_pow, Nat.cast_ofNat, Nat.cast_ofNat] at hcast
  calc (10 : ℚ) ^ k ≤ 10 ^ 308 := pow_le_pow_right₀ (by norm_num) hk
    _ < (2 ^ 53 - 1 : Nat) * 2 ^ (971 : Nat) := hlast'
    _ ≤ (2 ^ 53 - 1 / 2) * 2 ^ (971 : Nat) :=
      mul_le_mul_of_nonneg_right (by norm_num) (pow_nonneg (by norm_num) 971)

theorem two_zpow_le_pow_ten : (2 : ℚ) ^ (1024 : Int) ≤ 10 ^ 309 := by
  have hle : 2 ^ 1024 ≤ 10 ^ 309 := by decide +kernel
  have hcast := (Nat.cast_le (α := ℚ)).2 hle
  rw [zpow_ofNat]
  rwa [Nat.cast_pow, Nat.cast_pow, Nat.cast_ofNat, Nat.cast_ofNat] at hcast

/-- The powers of ten of the table are those that are computed. -/
theorem powerOfTen_eq (k : Nat) : (powerOfTen k).toModel = Float.Model.ofScientific 1 k := by
  rcases Nat.lt_or_ge 22 k with hlarge | htable
  · rw [powerOfTen, Float.ofScientific, dif_neg (by omega)]
    rfl
  · have htable' : ∀ i ≤ 22, (powerOfTen i).toModel = Float.Model.ofScientific 1 i := by
      decide +kernel
    exact htable' k htable

theorem rounds_powerOfTen {k : Nat} (hk : k ≤ 308) :
    ∃ t r f, (powerOfTen k).toModel = .pack f ∧ Rounds .positive (10 ^ k) t r f := by
  have hfits : ¬ (k : Int) > 2 ^ 11 := by omega
  have hfits' : ¬ (k : Int) < -(2 ^ 11 + (Nat.log2 1 : Nat)) := by omega
  have hmul : UnpackedFloat.ofScientific .binary64 1 k
      = UnpackedFloat.mul .binary64 (.finite .positive (2 ^ 53) (-53) (by decide))
          (.finite .positive (10 ^ k) 0 (by positivity)) := by
    rw [UnpackedFloat.ofScientific, dif_neg (by decide), if_neg hfits, if_neg hfits', if_pos (by omega)]
    rfl
  obtain ⟨t, r, hrounds⟩ := rounds_mul .positive .positive (-53) 0
    (show 0 < 2 ^ 53 by decide) (show 0 < 10 ^ k by positivity) (by
      calc 2 ^ 52 ≤ 2 ^ 53 * 1 := by decide
        _ ≤ 2 ^ 53 * 10 ^ k := Nat.mul_le_mul_left _ (Nat.one_le_pow _ _ (by decide)))
  have hvalue : (((2 ^ 53 : Nat) : ℚ) * 2 ^ (-53 : Int) * ((10 ^ k : Nat) * 2 ^ (0 : Int))) = 10 ^ k := by
    push_cast
    norm_num
  rw [hvalue, ← hmul] at hrounds
  exact ⟨t, r, _, powerOfTen_eq k, hrounds⟩

/-- The powers of ten in the range of doubles are rounded, and not changed as long as the power of five in
them has no more than 53 bits. -/
theorem powerOfTen_finite {k : Nat} (hk : k ≤ 308) :
    ∃ m e hm, (powerOfTen k).toModel.unpack = .finite .positive m e hm
      ∧ IsCanonical m e ∧ 2 ^ 52 ≤ m ∧ (m * 2 ^ e : ℚ) ≤ 10 ^ k * (1 + 1 / 2 ^ 53)
      ∧ (k ≤ 22 → (m * 2 ^ e : ℚ) = 10 ^ k) := by
  obtain ⟨t, r, f, hf, hrounds⟩ := rounds_powerOfTen hk
  obtain ⟨m, e, hm, rfl, hcanonical, hfull, hvalue, hle⟩ :=
    hrounds.finite_of_one_le (one_le_pow₀ (by norm_num)) (pow_ten_lt_endOfDoubles hk)
  refine ⟨m, e, hm, ?_, hcanonical, hfull, hle, fun hsmall => ?_⟩
  · rw [hf, unpack_pack hm hcanonical]
  · have hsplit : (10 : ℚ) ^ k = (5 ^ k : Nat) * 2 ^ (k : Int) := by
      rw [zpow_natCast, Nat.cast_pow, ← mul_pow]
      norm_num
    have hbits : 5 ^ k < 2 ^ 53 :=
      (Nat.pow_le_pow_right (by decide) hsmall).trans_lt (by decide)
    rw [hvalue, hrounds.exact hsplit hbits (by omega)]

/-! ## Numbers -/

/-- A number of at most sixty-four bits is a double, and not changed if it has no more than 53 of them. -/
theorem toFloat_finite {n : Nat} (hn : 0 < n) (hbound : n < bound) :
    ∃ m e hm, (UInt64.ofNat n).toFloat.toModel.unpack = .finite .positive m e hm
      ∧ IsCanonical m e ∧ (m * 2 ^ e : ℚ) ≤ n * (1 + 1 / 2 ^ 53)
      ∧ (n < 2 ^ 53 → (m * 2 ^ e : ℚ) = n) := by
  obtain ⟨t, r, hrounds⟩ := rounds_ofNat hn
  have hone : (1 : ℚ) ≤ n := by exact_mod_cast hn
  have hsmall : (n : ℚ) < endOfDoubles := by
    have hlt : n < 10 ^ 20 := hbound.trans (by decide)
    have hlt' : (n : ℚ) < 10 ^ 20 := by exact_mod_cast hlt
    exact hlt'.trans (pow_ten_lt_endOfDoubles (by decide))
  obtain ⟨m, e, hm, hfinite, hcanonical, hfull, hvalue, hle⟩ := hrounds.finite_of_one_le hone hsmall
  refine ⟨m, e, hm, ?_, hcanonical, hle, fun hshort => ?_⟩
  · have hmodel : (UInt64.ofNat n).toFloat.toModel
        = .pack (UnpackedFloat.ofNat .binary64 (UInt64.ofNat n).toNat) := rfl
    rw [hmodel, UInt64.toNat_ofNat_of_lt' hbound, hfinite, unpack_pack hm hcanonical]
  · have hexact : (n : ℚ) = n * 2 ^ (0 : Int) := by rw [zpow_zero, mul_one]
    rw [hvalue, hrounds.exact hexact hshort (by decide)]

theorem toFloat_zero : (UInt64.ofNat 0).toFloat.toModel.unpack = .zero .positive := unpack_pack_zero _

/-! ## Scaling -/

/-- A product up to this one stays below the end of the doubles when its factors are rounded up. -/
def readLimit : ℚ := (2 ^ 53 - 5 / 2) * 2 ^ (971 : Int)

theorem readLimit_lt : readLimit * (1 + 1 / 2 ^ 53) ^ 2 < endOfDoubles := by
  rw [readLimit, endOfDoubles, mul_right_comm]
  exact mul_lt_mul_of_pos_right (by norm_num) (two_zpow_pos 971)

/-- A product of which the exact value is far enough from the end of the doubles is finite. -/
theorem isInf_mul {n k : Nat} (hn : n < bound) (hk : k ≤ 308)
    (hx : (n : ℚ) * 10 ^ k ≤ readLimit) :
    ((UInt64.ofNat n).toFloat * powerOfTen k).isInf = false := by
  obtain ⟨m', e', hm', hpower, -, hfull, hle', -⟩ := powerOfTen_finite hk
  show (Float.Model.pack (UnpackedFloat.mul .binary64 (UInt64.ofNat n).toFloat.toModel.unpack
    (powerOfTen k).toModel.unpack)).unpack.isInf = false
  rcases Nat.eq_zero_or_pos n with rfl | hpos
  · rw [hpower, toFloat_zero]
    exact congrArg UnpackedFloat.isInf (unpack_pack_zero _)
  · obtain ⟨m, e, hm, hnumber, -, hle, -⟩ := toFloat_finite hpos hn
    obtain ⟨t, r, hrounds⟩ := rounds_mul .positive .positive e e' hm hm' (by
      calc 2 ^ 52 ≤ 1 * m' := by omega
        _ ≤ m * m' := Nat.mul_le_mul_right _ hm)
    rw [hnumber, hpower]
    refine hrounds.isInf_pack ?_
    have hpos' := two_zpow_pos e'
    calc (m * 2 ^ e * (m' * 2 ^ e') : ℚ)
        ≤ n * (1 + 1 / 2 ^ 53) * (10 ^ k * (1 + 1 / 2 ^ 53)) :=
          mul_le_mul hle hle' (by positivity) (by positivity)
      _ = n * 10 ^ k * (1 + 1 / 2 ^ 53) ^ 2 := by ring
      _ ≤ readLimit * (1 + 1 / 2 ^ 53) ^ 2 := mul_le_mul_of_nonneg_right hx (by positivity)
      _ < endOfDoubles := readLimit_lt

/-- What is made smaller is a double, however small it becomes. -/
theorem isSome_scale?_of_neg {x : Float} {exponent : Int} (h : exponent < 0) :
    (scale? x exponent).isSome := by
  fun_induction scale? x exponent with
  | case1 x exponent hsmall hnonneg => omega
  | case2 x exponent hsmall hnonneg => omega
  | case3 x exponent hsmall hneg => rfl
  | case4 x exponent hlarge hzero => rfl
  | case5 x exponent hlarge hnonzero hnonneg => omega
  | case6 x exponent hlarge hnonzero hneg ih => exact ih (by omega)

/-- What is scaled stays finite if the exact product is far enough from the end of the doubles. -/
theorem isSome_scale? {n : Nat} {exponent : Int} (hn : n < bound)
    (hx : (n : ℚ) * 10 ^ exponent ≤ readLimit) :
    (scale? (UInt64.ofNat n).toFloat exponent).isSome := by
  rcases lt_or_ge exponent 0 with hneg | hnonneg
  · exact isSome_scale?_of_neg hneg
  obtain ⟨k, rfl⟩ := Int.eq_ofNat_of_zero_le hnonneg
  rw [zpow_natCast] at hx
  rw [scale?, Int.natAbs_natCast]
  by_cases hk : k ≤ 308
  · rw [if_pos hk, if_pos hnonneg]
    dsimp only
    rw [isInf_mul hn hk hx]
    rfl
  · rw [if_neg hk]
    -- a power of ten that is no double is only scaled by nought
    have hzero : n = 0 := by
      by_contra hne
      have hone : (1 : ℚ) ≤ n := by exact_mod_cast Nat.pos_of_ne_zero hne
      have hlarge : (2 : ℚ) ^ (1024 : Int) ≤ 10 ^ k :=
        two_zpow_le_pow_ten.trans (pow_le_pow_right₀ (by norm_num) (by omega))
      have hend : readLimit < endOfDoubles :=
        mul_lt_mul_of_pos_right (by norm_num) (two_zpow_pos 971)
      have hle : (10 : ℚ) ^ k ≤ n * 10 ^ k := le_mul_of_one_le_left (by positivity) hone
      exact absurd (hlarge.trans (hle.trans hx)) (not_le_of_gt (hend.trans endOfDoubles_lt))
    rw [hzero, if_pos (by decide +kernel)]
    rfl

/-- Where both factors are exact, only their quotient is rounded. -/
theorem rounds_scale? {n k : Nat} (hn : 0 < n) (hbits : n < 2 ^ 53) (hk : 0 < k) (hk' : k ≤ 22) :
    ∃ t r f, scale? (UInt64.ofNat n).toFloat (-k) = some (.ofModel (.pack f))
      ∧ Rounds .positive (n / 10 ^ k) t r f := by
  obtain ⟨m, e, hm, hnumber, -, -, hexact⟩ := toFloat_finite hn (hbits.trans (by decide))
  obtain ⟨m', e', hm', hpower, -, -, -, hexact'⟩ := powerOfTen_finite (hk'.trans (by decide))
  obtain ⟨t, r, hrounds⟩ := rounds_div .positive .positive e e' hm hm'
  rw [hexact hbits, hexact' hk'] at hrounds
  refine ⟨t, r, _, ?_, hrounds⟩
  have hscale : scale? (UInt64.ofNat n).toFloat (-k)
      = some ((UInt64.ofNat n).toFloat / powerOfTen k) := by
    rw [scale?, Int.natAbs_neg, Int.natAbs_natCast, if_pos (by omega), if_neg (by omega)]
  rw [hscale, ← hnumber, ← hpower]
  rfl

end Reading

end TransferQueue
