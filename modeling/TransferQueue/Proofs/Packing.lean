import TransferQueue.Double.Magnitude
import Mathlib

/-!
# The bits of a double

The bits of a double are its sign, its exponent and its mantissa, one after the other.  What is taken
out of them is what was put into them, and a double is determined by it.

* `IsCanonical`: the mantissas and exponents that there are bits for;
* `unpack_pack`, `pack_unpack_model`: nothing is lost in the bits;
* `Magnitude.unpack_of_ofFloat?`: the magnitude of a double is what is taken out of its bits.
-/

namespace TransferQueue

open Float.Model Float.Model.UnpackedFloat

/-- A mantissa and an exponent of a double: the mantissa has all its bits, or the exponent is the least
one. -/
structure IsCanonical (m : Nat) (e : Int) : Prop where
  lt : m < 2 ^ 53
  least : -1074 ≤ e
  greatest : e ≤ 971
  full : 2 ^ 52 ≤ m ∨ e = -1074

/-! ## The parts of the bits -/

theorem toNat_unpackMantissa (b : BitVec 64) :
    (@unpackMantissa .binary64 b).toNat = b.toNat % 2 ^ 52 := by
  simp [unpackMantissa_def]

theorem toNat_unpackExponent (b : BitVec 64) :
    (@unpackExponent .binary64 b).toNat = b.toNat / 2 ^ 52 % 2 ^ 11 := by
  simp [unpackExponent_def, Nat.shiftRight_eq_div_pow]

theorem toNat_unpackSign (b : BitVec 64) :
    (@unpackSign .binary64 b).toNat = b.toNat / 2 ^ 63 % 2 := by
  simp [unpackSign_def, Nat.shiftRight_eq_div_pow]

/-! ## Finite doubles -/

section Finite

variable {sign : Sign} {m : Nat} {e : Int} (hm : 0 < m)

include hm

theorem pack_of_full (hfull : 2 ^ 52 ≤ m) (hlt : m < 2 ^ 53) (hleast : -1074 ≤ e)
    (hgreatest : e ≤ 971) :
    UnpackedFloat.pack .binary64 (.finite sign m e hm)
      = packComponents .binary64 sign (BitVec.ofNat 11 (e + 1075).toNat) (BitVec.ofNat 52 m) := by
  have hlog : m.log2 + 1 = Format.binary64.mantissaBits := by
    show m.log2 + 1 = 53
    have hge := (Nat.le_log2 hm.ne').2 hfull
    have hle := (Nat.log2_lt hm.ne').2 hlt
    omega
  have hbias : (e + (Format.binary64.exponentBias : Int)
      + (Format.binary64.mantissaBitsWithoutImplicit : Int)).toNat = (e + 1075).toNat := by
    show (e + 1023 + 52).toNat = (e + 1075).toNat
    omega
  have hinfinite : ¬ 2 ^ 11 ≤ (e + 1075).toNat + 1 := by omega
  simp only [UnpackedFloat.pack, hbias, if_neg hinfinite]
  rw [if_pos hlog]

theorem pack_of_small (hlt : m < 2 ^ 52) :
    UnpackedFloat.pack .binary64 (.finite sign m (-1074) hm)
      = packComponents .binary64 sign 0#11 (BitVec.ofNat 52 m) := by
  have hlog : ¬ m.log2 + 1 = Format.binary64.mantissaBits := by
    show ¬ m.log2 + 1 = 53
    have hle := (Nat.log2_lt hm.ne').2 hlt
    omega
  have hbias : (-1074 + (Format.binary64.exponentBias : Int)
      + (Format.binary64.mantissaBitsWithoutImplicit : Int)).toNat = 1 := by decide
  simp only [UnpackedFloat.pack, hbias]
  rw [if_neg (by decide), if_neg hlog]

end Finite

theorem ofNat_toNat_of_lt {w n : Nat} (h : n < 2 ^ w) : (BitVec.ofNat w n).toNat = n := by
  rw [BitVec.toNat_ofNat, Nat.mod_eq_of_lt h]

/-- The first bit of a mantissa that has all of them is not written. -/
theorem toNat_implicit (mantissa : BitVec 52) : (1#1 ++ mantissa).toNat = 2 ^ 52 + mantissa.toNat := by
  rw [BitVec.toNat_append, ← Nat.shiftLeft_add_eq_or_of_lt mantissa.isLt, Nat.shiftLeft_eq]
  rfl

/-- A finite double is taken out of its bits as it was put into them. -/
theorem unpack_pack {sign : Sign} {m : Nat} {e : Int} (hm : 0 < m) (h : IsCanonical m e) :
    (Float.Model.pack (.finite sign m e hm)).unpack = .finite sign m e hm := by
  show UnpackedFloat.unpack .binary64 (UnpackedFloat.pack .binary64 (.finite sign m e hm)) = _
  rcases Nat.lt_or_ge m (2 ^ 52) with hsmall | hfull
  · obtain rfl : e = -1074 := h.full.resolve_left (by omega)
    have hmantissa := ofNat_toNat_of_lt hsmall
    have hne : BitVec.ofNat 52 m ≠ 0#52 := fun hzero => by
      rw [hzero] at hmantissa
      exact hm.ne hmantissa
    rw [pack_of_small hm hsmall]
    simp only [UnpackedFloat.unpack, unpackMantissa_packComponents, unpackExponent_packComponents,
      unpackSign_packComponents, Sign.ofBitVec_toBitVec]
    rw [if_neg (by decide), if_pos trivial, dif_neg hne]
    simp only [hmantissa]
    rfl
  · have hlt := h.lt
    have hleast := h.least
    have hgreatest := h.greatest
    have hexponent : (BitVec.ofNat 11 (e + 1075).toNat).toNat = (e + 1075).toNat :=
      ofNat_toNat_of_lt (by omega)
    have hnotZero : BitVec.ofNat 11 (e + 1075).toNat ≠ 0#11 := fun hzero => by
      rw [hzero] at hexponent
      simp only [BitVec.toNat_zero] at hexponent
      omega
    have hnotOnes : BitVec.ofNat 11 (e + 1075).toNat ≠ -1#11 := fun hones => by
      rw [hones] at hexponent
      have : (-1#11 : BitVec 11).toNat = 2047 := by decide
      omega
    have hmantissa : (1#1 ++ BitVec.ofNat 52 m).toNat = m := by
      rw [toNat_implicit, BitVec.toNat_ofNat]
      omega
    rw [pack_of_full hm hfull hlt hleast hgreatest]
    simp only [UnpackedFloat.unpack, unpackMantissa_packComponents, unpackExponent_packComponents,
      unpackSign_packComponents, Sign.ofBitVec_toBitVec]
    rw [if_neg hnotOnes, if_neg hnotZero]
    simp only [hmantissa, hexponent]
    congr 1
    show ((e + 1075).toNat : Int) - (1023 + 52) = e
    omega

theorem unpack_pack_zero (sign : Sign) : (Float.Model.pack (.zero sign)).unpack = .zero sign :=
  unpack_packedZero

/-- A double is put together again from what is taken out of its bits. -/
theorem pack_unpack_model (f : Float.Model) : Float.Model.pack f.unpack = f := by
  have hpack : UnpackedFloat.pack .binary64 f.unpack = f.toBits.toBitVec := pack_unpack_of_valid f.valid
  simp only [Float.Model.pack, hpack]

/-- Two doubles of which the same is taken out are the same. -/
theorem eq_of_unpack_eq {x y : Float} (h : x.toModel.unpack = y.toModel.unpack) : x = y := by
  have hmodel : x.toModel = y.toModel := by rw [← pack_unpack_model x.toModel, h, pack_unpack_model]
  cases x
  cases y
  exact congrArg Float.ofModel hmodel

section Unpacked

variable {b : BitVec 64}

/-- Bits whose exponent is nought give a mantissa that does not have all its bits. -/
theorem unpack_of_exponent_zero (hexponent : @unpackExponent .binary64 b = 0#11)
    (hmantissa : @unpackMantissa .binary64 b ≠ 0#52) :
    ∃ hm, UnpackedFloat.unpack .binary64 b
      = .finite (.ofBitVec (@unpackSign .binary64 b)) (@unpackMantissa .binary64 b).toNat (-1074) hm := by
  have hpos : 0 < (@unpackMantissa .binary64 b).toNat := by
    refine Nat.pos_of_ne_zero fun hzero => hmantissa ?_
    exact BitVec.eq_of_toNat_eq hzero
  refine ⟨hpos, ?_⟩
  rw [UnpackedFloat.unpack]
  simp only [hexponent]
  rw [if_neg (by decide), if_pos trivial, dif_neg hmantissa]
  rfl

/-- Other finite bits give a mantissa that has all its bits. -/
theorem unpack_of_exponent_ne_zero (hones : @unpackExponent .binary64 b ≠ -1#11)
    (hzero : @unpackExponent .binary64 b ≠ 0#11) :
    ∃ hm, UnpackedFloat.unpack .binary64 b
      = .finite (.ofBitVec (@unpackSign .binary64 b)) (2 ^ 52 + (@unpackMantissa .binary64 b).toNat)
        ((@unpackExponent .binary64 b).toNat - 1075) hm := by
  refine ⟨by omega, ?_⟩
  rw [UnpackedFloat.unpack, if_neg hones, if_neg hzero]
  simp only [toNat_implicit]
  rfl

end Unpacked

/-! ## Magnitudes -/

/-- The sign of a double. -/
def signOf (x : Float) : Sign := .ofBitVec (@unpackSign .binary64 x.toBits.toBitVec)

theorem signOf_eq (x : Float) : signOf x = if isSigned x then .negative else .positive := by
  have hbit : x.toBits.toNat / Nat.pow 2 63 % 2 = (@unpackSign .binary64 x.toBits.toBitVec).toNat :=
    (toNat_unpackSign _).symm
  rw [signOf, isSigned, hbit]
  generalize @unpackSign .binary64 x.toBits.toBitVec = sign
  rcases (show sign = 0#1 ∨ sign = 1#1 by revert sign; decide) with rfl | rfl <;> rfl

namespace Magnitude

/-- A double that has a magnitude is finite, and the magnitude is what is taken out of its bits. -/
theorem unpack_of_ofFloat? {x : Float} {m : Magnitude} (h : ofFloat? x = some m) :
    (m.mantissa = 0 ∧ x.toModel.unpack = .zero (signOf x))
      ∨ (∃ hm, x.toModel.unpack = .finite (signOf x) m.mantissa m.exponent hm)
        ∧ IsCanonical m.mantissa m.exponent
        ∧ (m.mantissa = 2 ^ 52 → m.exponent ≠ -1074 → m.narrowBelow = true) := by
  have hfraction : x.toBits.toNat % Nat.pow 2 52 = (@unpackMantissa .binary64 x.toBits.toBitVec).toNat :=
    (toNat_unpackMantissa _).symm
  have hscale : x.toBits.toNat / Nat.pow 2 52 % Nat.pow 2 11
      = (@unpackExponent .binary64 x.toBits.toBitVec).toNat := (toNat_unpackExponent _).symm
  have hmantissa : (@unpackMantissa .binary64 x.toBits.toBitVec).toNat < 2 ^ 52 := BitVec.isLt _
  have hexponent : (@unpackExponent .binary64 x.toBits.toBitVec).toNat < 2 ^ 11 := BitVec.isLt _
  simp only [ofFloat?, hfraction, hscale] at h
  show (_ ∧ UnpackedFloat.unpack .binary64 x.toBits.toBitVec = _)
    ∨ (∃ hm, UnpackedFloat.unpack .binary64 x.toBits.toBitVec = _) ∧ _
  split at h
  · exact absurd h (by simp)
  · rename_i hfinite
    have hones : @unpackExponent .binary64 x.toBits.toBitVec ≠ -1#11 := fun hones => by
      rw [hones] at hfinite
      exact hfinite rfl
    split at h
    · rename_i hzero
      have hsmall : @unpackExponent .binary64 x.toBits.toBitVec = 0#11 := BitVec.eq_of_toNat_eq hzero
      obtain rfl := Option.some.inj h
      by_cases hnought : @unpackMantissa .binary64 x.toBits.toBitVec = 0#52
      · left
        refine ⟨by rw [hnought]; rfl, ?_⟩
        rw [UnpackedFloat.unpack, if_neg hones, if_pos hsmall, dif_pos hnought]
        rfl
      · right
        refine ⟨unpack_of_exponent_zero hsmall hnought, ⟨?_, le_rfl, ?_, .inr rfl⟩, ?_⟩
        · dsimp only
          omega
        · dsimp only
          omega
        · intro _ hne
          exact absurd rfl hne
    · rename_i hnonzero
      have hfull : @unpackExponent .binary64 x.toBits.toBitVec ≠ 0#11 := fun hzero => by
        rw [hzero] at hnonzero
        exact hnonzero rfl
      obtain rfl := Option.some.inj h
      right
      refine ⟨unpack_of_exponent_ne_zero hones hfull, ?_, ?_⟩
      · constructor <;> dsimp only
        · show 2 ^ 52 + _ < 2 ^ 53
          omega
        · omega
        · omega
        · exact .inl (Nat.le_add_right _ _)
      · intro hm hne
        have hm' : (@unpackMantissa .binary64 x.toBits.toBitVec).toNat = 0 := Nat.add_left_cancel hm
        have hne' : 1 < (@unpackExponent .binary64 x.toBits.toBitVec).toNat := by
          dsimp only at hne
          omega
        simp [hm', hne']

end Magnitude

end TransferQueue
