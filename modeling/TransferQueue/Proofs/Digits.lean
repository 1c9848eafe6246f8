import Mathlib.Tactic.Ring
import TransferQueue.Digit

/-!
# Values of digits

What a list of digits is worth, taken apart at the front and at the back, and how many digits a
number has.

* `Digit.value_append`: digits behind digits;
* `Digit.value_lt`, `Digit.pow_le_of_length_ofNat`, `Digit.length_ofNat_le`: the length of a list of digits
  bounds its value, and the other way round;
* `Digit.value_ofNatPadded`, `Digit.length_ofNatPadded`: a number that is padded with zeros.
-/

namespace TransferQueue

namespace Digit

/-! ## Values -/

/-- Digits that are read on from a number. -/
theorem foldl_eq (n : Nat) (ds : List Digit) :
    ds.foldl (fun n d => 10 * n + d.val) n = n * 10 ^ ds.length + value ds := by
  induction ds generalizing n with
  | nil => simp [value]
  | cons d ds ih =>
    have hvalue : value (d :: ds) = d.val * 10 ^ ds.length + value ds := by
      rw [value, List.foldl_cons, ih]
      simp
    rw [List.foldl_cons, ih, hvalue, List.length_cons, pow_succ]
    ring

theorem value_cons (d : Digit) (ds : List Digit) : value (d :: ds) = d.val * 10 ^ ds.length + value ds := by
  rw [value, List.foldl_cons, foldl_eq]
  simp

/-- The first of the digits that are read on from a number. -/
theorem mul_pow_add_value_cons (n : Nat) (d : Digit) (ds : List Digit) :
    n * 10 ^ (d :: ds).length + value (d :: ds) = (10 * n + d.val) * 10 ^ ds.length + value ds := by
  rw [value_cons, List.length_cons, pow_succ]
  ring

theorem value_append (ds es : List Digit) : value (ds ++ es) = value ds * 10 ^ es.length + value es := by
  rw [value, List.foldl_append, foldl_eq, ← value]

theorem value_replicate_zero (n : Nat) : value (List.replicate n zero) = 0 := by
  induction n with
  | zero => rfl
  | succ n ih => rw [List.replicate_succ, value_cons, ih]; simp [zero]

theorem value_lt (ds : List Digit) : value ds < 10 ^ ds.length := by
  induction ds with
  | nil => decide
  | cons d ds ih =>
    rw [value_cons, List.length_cons, pow_succ]
    have hle : d.val * 10 ^ ds.length ≤ 9 * 10 ^ ds.length := Nat.mul_le_mul_right _ (by omega)
    omega

/-! ## Lengths -/

theorem ofNat_ne_nil (n : Nat) : ofNat n ≠ [] := by
  rw [ofNat]
  split <;> simp

/-- A number has no more digits than it needs. -/
theorem pow_le_of_length_ofNat {n : Nat} (hn : n ≠ 0) : 10 ^ ((ofNat n).length - 1) ≤ n := by
  induction n using Nat.strongRecOn with
  | _ n ih =>
    rw [ofNat]
    split
    · simp
      omega
    · rename_i hlarge
      have hrest := ih (n / 10) (by omega) (by omega)
      have hlength : 0 < (ofNat (n / 10)).length := List.length_pos_iff.2 (ofNat_ne_nil _)
      obtain ⟨k, hk⟩ : ∃ k, (ofNat (n / 10)).length = k + 1 := ⟨_, (Nat.succ_pred hlength.ne').symm⟩
      rw [List.length_append, hk]
      rw [hk] at hrest
      simp only [List.length_singleton, Nat.add_sub_cancel] at hrest ⊢
      rw [pow_succ]
      omega

/-- A number has as many digits as it needs. -/
theorem length_ofNat_le {n width : Nat} (hwidth : 0 < width) (hn : n < 10 ^ width) :
    (ofNat n).length ≤ width := by
  by_contra hlong
  have hne : n ≠ 0 := by
    rintro rfl
    rw [ofNat] at hlong
    simp at hlong
    omega
  have hpow : 10 ^ width ≤ 10 ^ ((ofNat n).length - 1) := Nat.pow_le_pow_right (by decide) (by omega)
  have hbelow := pow_le_of_length_ofNat hne
  omega

/-! ## Padding -/

theorem ofNatPadded_ne_nil (width n : Nat) : ofNatPadded width n ≠ [] := by
  simp [ofNatPadded, ofNat_ne_nil]

theorem value_ofNatPadded (width n : Nat) : value (ofNatPadded width n) = n := by
  rw [ofNatPadded, value_append, value_replicate_zero, value_ofNat]
  simp

theorem length_ofNatPadded {n width : Nat} (hwidth : 0 < width) (hn : n < 10 ^ width) :
    (ofNatPadded width n).length = width := by
  have hle := length_ofNat_le hwidth hn
  simp [ofNatPadded]
  omega

end Digit

end TransferQueue
