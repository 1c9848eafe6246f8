import TransferQueue.Proofs.Placement

/-!
# One place for all searches

The search for the place of a new row ends early at a foreign row and then goes on from the other
end; the search for that of a loaded row looks at the last row of the lane first.  Among sorted rows
both find the place that the plain definition gives, which looks at every row.

* `Queue.placeBehind`: behind the last row of the lane that does not come after the new one;
* `Queue.placeFor_eq_placeBehind`, `Queue.placeLoading_eq_placeFor`: the searches find it.
-/

namespace TransferQueue

/-- Behind a last element with the property there are elements without it only. -/
theorem lastIdx?_append_cons {α : Type} {p : α → Bool} {before after : List α} {a : α}
    (ha : p a = true) (hafter : ∀ b ∈ after, p b = false) :
    lastIdx? p (before ++ a :: after) = some before.length :=
  lastIdx?_eq_some_iff.2 ⟨before, a, after, rfl, rfl, ha, hafter⟩

namespace Queue

variable {rows : List Row} {lane : Lane} {priority : UInt64}

/-- Whether a row is of the lane and does not come after a row of the priority. -/
def isUpTo (lane : Lane) (priority : UInt64) (row : Row) : Bool :=
  row.isIn lane && row.entry.priority ≤ priority

theorem isUpTo_eq_true_iff {row : Row} :
    isUpTo lane priority row = true ↔ row.entry.lane = lane ∧ row.entry.priority ≤ priority := by
  simp [isUpTo]

theorem isUpTo_eq_false_iff {row : Row} :
    isUpTo lane priority row = false ↔ (row.entry.lane = lane → priority < row.entry.priority) := by
  simp [isUpTo]

/-- The place behind the last row of the lane that does not come after a row of the priority; if all
come after it, the place of the first of them, and the end if the lane has no row. -/
def placeBehind (lane : Lane) (priority : UInt64) (rows : List Row) : Nat :=
  match lastIdx? (isUpTo lane priority) rows with
  | some i => i + 1
  | none => (rows.findIdx? (Row.isIn lane)).getD rows.length

/-- A lane without rows gets its place at the end. -/
theorem placeBehind_of_absent (h : ∀ row ∈ rows, row.entry.lane ≠ lane) :
    placeBehind lane priority rows = rows.length := by
  have hlast : lastIdx? (isUpTo lane priority) rows = none :=
    lastIdx?_eq_none_iff.2 fun row hrow =>
      isUpTo_eq_false_iff.2 fun hlane => absurd hlane (h row hrow)
  have hfirst : rows.findIdx? (Row.isIn lane) = none :=
    List.findIdx?_eq_none_iff.2 fun row hrow => Row.isIn_eq_false_iff.2 (h row hrow)
  rw [placeBehind, hlast, hfirst]
  rfl

/-- A row of the lane that does not come after the new one, and behind which no other such row
stands, has the new one behind it. -/
theorem placeBehind_append_cons {before after : List Row} {row : Row}
    (hrow : isUpTo lane priority row = true)
    (hafter : ∀ a ∈ after, isUpTo lane priority a = false) :
    placeBehind lane priority (before ++ row :: after) = before.length + 1 := by
  rw [placeBehind, lastIdx?_append_cons hrow hafter]

/-- If no row of the lane precedes the new one, it comes before the first of them. -/
theorem placeBehind_first {before after : List Row} {row : Row} (hrow : row.entry.lane = lane)
    (hbefore : ∀ a ∈ before, a.entry.lane ≠ lane)
    (hafter : ∀ a ∈ row :: after, isUpTo lane priority a = false) :
    placeBehind lane priority (before ++ row :: after) = before.length := by
  have hlast : lastIdx? (isUpTo lane priority) (before ++ row :: after) = none := by
    refine lastIdx?_eq_none_iff.2 fun a ha => ?_
    rcases List.mem_append.1 ha with ha | ha
    · exact isUpTo_eq_false_iff.2 fun hlane => absurd hlane (hbefore a ha)
    · exact hafter a ha
  have hfirst : (before ++ row :: after).findIdx? (Row.isIn lane) = some before.length := by
    have hnone : before.findIdx? (Row.isIn lane) = none :=
      List.findIdx?_eq_none_iff.2 fun a ha => Row.isIn_eq_false_iff.2 (hbefore a ha)
    rw [List.findIdx?_append, hnone, List.findIdx?_cons, if_pos (Row.isIn_eq_true_iff.2 hrow)]
    simp
  rw [placeBehind, hlast, hfirst]
  rfl

/-- The search for the place of a new row finds the plain one. -/
theorem placeFor_eq_placeBehind (h : Sorted rows) (lane : Lane) (priority : UInt64) :
    placeFor lane priority rows = placeBehind lane priority rows := by
  rw [placeFor]
  split
  · rename_i hnone
    refine (placeBehind_of_absent fun row hrow => ?_).symm
    simpa using List.findIdx?_eq_none_iff.1 hnone row hrow
  · rename_i first hfirst
    simp only
    split
    · -- in the first block of the lane a row comes after the new one, and so do all behind it
      rename_i i hi
      obtain ⟨pre, head, rest, rfl, rfl, -, hpre⟩ := exists_split_of_findIdx? hfirst
      rw [List.drop_left] at hi
      obtain ⟨low, row, high, hblock, rfl, hrow, hlow⟩ := exists_split_of_findIdx? hi
      have hin : ∀ a ∈ low ++ row :: high, a.entry.lane = lane := by
        rw [← hblock]
        exact fun a ha => Row.isIn_eq_true_iff.1 (List.mem_takeWhile_imp ha)
      obtain ⟨tail, htail⟩ : ∃ tail, head :: rest = low ++ row :: (high ++ tail) :=
        ⟨_, by simpa [hblock] using (List.takeWhile_append_dropWhile (p := Row.isIn lane)
          (l := head :: rest)).symm⟩
      rw [htail, ← List.append_assoc] at h ⊢
      have hafter : ∀ a ∈ row :: (high ++ tail), isUpTo lane priority a = false := by
        intro a ha
        rw [isUpTo_eq_false_iff]
        intro halane
        rcases List.mem_cons.1 ha with rfl | ha
        · exact of_decide_eq_true hrow
        · exact UInt64.lt_of_lt_of_le (of_decide_eq_true hrow)
            (h.ge_of_split a ha ((hin row (by simp)).trans halane.symm))
      rcases List.eq_nil_or_concat low with rfl | ⟨low, last, rfl⟩
      · -- it is the first of the block
        simp only [List.append_nil] at h hafter ⊢
        exact (placeBehind_first (hin row (by simp)) (by simpa using hpre) hafter).symm
      · have hlast : isUpTo lane priority last = true :=
          isUpTo_eq_true_iff.2 ⟨hin last (by simp), by simpa using hlow last (by simp)⟩
        simp only [List.concat_eq_append, List.append_assoc, List.cons_append, List.nil_append,
          List.length_append, List.length_cons, List.length_nil, ← Nat.add_assoc]
        rw [← List.append_assoc, placeBehind_append_cons hlast hafter, List.length_append]
    · -- otherwise the search goes on as the definition does
      rw [placeBehind, hfirst]
      rfl

/-- The search for the place of a loaded row finds the place of a new row. -/
theorem placeLoading_eq_placeFor (h : Sorted rows) (lane : Lane) (priority : UInt64) :
    placeLoading lane priority rows = placeFor lane priority rows := by
  rw [placeLoading]
  split
  · rename_i hnone
    rw [placeFor_eq_placeBehind h]
    refine (placeBehind_of_absent fun row hrow => ?_).symm
    simpa using lastIdx?_eq_none_iff.1 hnone row hrow
  · rename_i i hi
    split
    · rename_i hle
      obtain ⟨before, row, after, rfl, rfl, hrow, hafter⟩ := lastIdx?_eq_some_iff.1 hi
      rw [placeFor_eq_placeBehind h]
      refine (placeBehind_append_cons ?_ fun a ha => ?_).symm
      · exact isUpTo_eq_true_iff.2 ⟨Row.isIn_eq_true_iff.1 hrow, by simpa using hle⟩
      · exact isUpTo_eq_false_iff.2 fun hlane => absurd hlane (by simpa using hafter a ha)
    · rfl

end Queue

end TransferQueue
