import TransferQueue.Proofs.Checked.Words

/-!
# The end of a transfer as a moment

The engine counts tenths of seconds in words with a sign, from a start of its own, and nothing is known
of the two moments in a report but that.  Their difference and its multiple are the nearest words, so a
span comes of them whatever they are, and it never leads back.

* `Report.checkedFinishTime_eq`: no step towards the end of a transfer is a trap;
* `Report.le_finishTime`: a transfer does not come to its end before now.
-/

namespace TransferQueue

/-! ## The order of instants -/

namespace Instant

/-- One instant after the other: by the seconds, then by the nanoseconds. -/
instance : LE Instant :=
  ⟨fun t t' => t.seconds < t'.seconds ∨ t.seconds = t'.seconds ∧ t.nanos ≤ t'.nanos⟩

theorem le_iff {t t' : Instant} :
    t ≤ t' ↔ t.seconds < t'.seconds ∨ t.seconds = t'.seconds ∧ t.nanos ≤ t'.nanos := Iff.rfl

instance (t t' : Instant) : Decidable (t ≤ t') :=
  inferInstanceAs (Decidable (t.seconds < t'.seconds ∨ t.seconds = t'.seconds ∧ t.nanos ≤ t'.nanos))

theorem le_refl (t : Instant) : t ≤ t := .inr ⟨rfl, Nat.le_refl _⟩

/-- What is later is not before, and within the timeline. -/
theorem le_of_later? {t t' : Instant} {millis : Nat} (h : t.later? millis = some t') :
    t ≤ t' ∧ t'.inRange = true := by
  have hlt := t.nanos_lt
  simp only [later?] at h
  split at h
  · -- it stays in the leap second
    split at h
    · rename_i hrange
      obtain rfl := Option.some.inj h
      exact ⟨.inr ⟨rfl, Nat.le_add_right _ _⟩, hrange⟩
    · cases h
  · split at h
    · rename_i hrange
      obtain rfl := Option.some.inj h
      refine ⟨?_, hrange⟩
      rw [le_iff]
      dsimp only
      omega
    · cases h

end Instant

/-! ## Words with a sign -/

namespace Checked

/-- The difference of two words with a sign, or the word that is nearest to it. -/
def subNearest (x y : Int64) : Int64 := .ofInt (Report.clampInt64 (x.toInt - y.toInt))

/-- The product of two words with a sign, or the word that is nearest to it. -/
def mulNearest (x y : Int64) : Int64 := .ofInt (Report.clampInt64 (x.toInt * y.toInt))

/-- A span of milliseconds; one that leads back is a trap. -/
def millis (x : Int64) : Checked Nat := if 0 ≤ x then .ok x.toInt.toNat else .error .wraps

/-- The word that is nearest to a number is a word. -/
theorem toInt_ofInt_clampInt64 (n : Int) :
    (Int64.ofInt (Report.clampInt64 n)).toInt = Report.clampInt64 n := by
  have hleast : Int64.minValue.toInt = -2 ^ 63 := by decide
  have hgreatest : Int64.maxValue.toInt = 2 ^ 63 - 1 := by decide
  refine Int64.toInt_ofInt_of_le ?_ ?_
  · rw [Report.clampInt64, hleast]
    omega
  · rw [Report.clampInt64, hleast, hgreatest]
    omega

theorem toInt_subNearest (x y : Int64) :
    (subNearest x y).toInt = Report.clampInt64 (x.toInt - y.toInt) := toInt_ofInt_clampInt64 _

theorem toInt_mulNearest (x y : Int64) :
    (mulNearest x y).toInt = Report.clampInt64 (x.toInt * y.toInt) := toInt_ofInt_clampInt64 _

theorem toInt_max_zero (x : Int64) : (max x 0).toInt = max 0 x.toInt := by
  have hmax : max x 0 = if x ≤ 0 then 0 else x := rfl
  rw [hmax]
  by_cases hle : x ≤ 0
  · have hle' : x.toInt ≤ 0 := Int64.le_iff_toInt_le.1 hle
    rw [if_pos hle, Int.max_eq_left hle']
    rfl
  · have hlt' : ¬x.toInt ≤ 0 := fun h => hle (Int64.le_iff_toInt_le.2 h)
    rw [if_neg hle, Int.max_eq_right (by omega)]

theorem millis_eq {x : Int64} (h : 0 ≤ x.toInt) : millis x = .ok x.toInt.toNat := by
  have hle : 0 ≤ x := Int64.le_iff_toInt_le.2 h
  exact if_pos hle

end Checked

/-! ## The end of a transfer -/

namespace Report

/-- The moment at which a transfer has come to its end. -/
def checkedFinishTime (r : Report) (now : Instant) : Checked Instant := do
  let elapsed := max (Checked.subNearest r.updatedAt r.startedAt) 0
  let millis ← Checked.millis (Checked.mulNearest elapsed 100)
  pure ((now.later? millis).getD now)

/-- Whatever the moments in the report are, a span comes of them. -/
theorem checkedFinishTime_eq (r : Report) (now : Instant) :
    r.checkedFinishTime now = .ok (r.finishTime now) := by
  have helapsed : (Checked.mulNearest (max (Checked.subNearest r.updatedAt r.startedAt) 0) 100).toInt
      = clampInt64 (100 * max 0 (clampInt64 (r.updatedAt.toInt - r.startedAt.toInt))) := by
    rw [Checked.toInt_mulNearest, Checked.toInt_max_zero, Checked.toInt_subNearest, Int.mul_comm]
    rfl
  have hforward : 0 ≤ clampInt64 (100 * max 0 (clampInt64 (r.updatedAt.toInt - r.startedAt.toInt))) := by
    have hleast : Int64.minValue.toInt = -2 ^ 63 := by decide
    have hgreatest : Int64.maxValue.toInt = 2 ^ 63 - 1 := by decide
    rw [clampInt64, hgreatest]
    omega
  rw [checkedFinishTime, Checked.millis_eq (helapsed ▸ hforward), helapsed]
  rfl

/-- A transfer does not come to its end before now, nor after the end of the timeline. -/
theorem le_finishTime (r : Report) (now : Instant) :
    now ≤ r.finishTime now ∧ (now.inRange = true → (r.finishTime now).inRange = true) := by
  rw [finishTime]
  rcases hlater : now.later? r.elapsedMillis with _ | t
  · exact ⟨now.le_refl, id⟩
  · obtain ⟨hle, hrange⟩ := Instant.le_of_later? hlater
    exact ⟨hle, fun _ => hrange⟩

end Report

end TransferQueue
