import Mathlib.Data.List.TakeWhile
import TransferQueue.Queue.Placement

/-!
# The places that the searches find

Three searches find the place of a row.  They go different ways, but among rows in which each lane
is in the order of its priorities all of them find a *slot*: the rows of the lane before it do not
come after the new row, those behind it do not come before the new row, and the slot touches the
lane, or is the end if the lane has no row.

* `Queue.slot_placeFor`, `Queue.slot_placeLoading`, `Queue.slot_placeRaised`: the searches find
  slots.
-/

namespace TransferQueue

/-! ## Positions in a list -/

section List

variable {α : Type}

theorem insertIdx_append_length (before after : List α) (a : α) :
    (before ++ after).insertIdx before.length a = before ++ a :: after := by
  induction before with
  | nil => rfl
  | cons b before ih => rw [List.cons_append, List.length_cons, List.insertIdx_succ_cons, ih]; rfl

theorem set_append_length (before after : List α) (a b : α) :
    (before ++ a :: after).set before.length b = before ++ b :: after := by
  simp

theorem eraseIdx_append_length (before after : List α) (a : α) :
    (before ++ a :: after).eraseIdx before.length = before ++ after := by
  simp [List.eraseIdx_append_of_length_le]

/-- A position splits the list. -/
theorem exists_append_of_le {as : List α} {i : Nat} (h : i ≤ as.length) :
    ∃ before after, as = before ++ after ∧ before.length = i :=
  ⟨as.take i, as.drop i, (List.take_append_drop i as).symm, List.length_take_of_le h⟩

/-- What stands at a position splits the list. -/
theorem exists_split_of_getElem? {as : List α} {i : Nat} {a : α} (h : as[i]? = some a) :
    ∃ before after, as = before ++ a :: after ∧ before.length = i := by
  obtain ⟨hi, rfl⟩ := List.getElem?_eq_some_iff.1 h
  refine ⟨as.take i, as.drop (i + 1), ?_, by simp [Nat.le_of_lt hi]⟩
  rw [List.getElem_cons_drop, List.take_append_drop]

/-- The first position whose element has a property splits the list into elements without the
property, the element, and what comes behind it. -/
theorem exists_split_of_findIdx? {p : α → Bool} {as : List α} {i : Nat}
    (h : as.findIdx? p = some i) :
    ∃ before a after, as = before ++ a :: after ∧ before.length = i ∧ p a = true
      ∧ ∀ b ∈ before, p b = false := by
  obtain ⟨hi, hp, hmin⟩ := List.findIdx?_eq_some_iff_getElem.1 h
  obtain ⟨before, after, has, hlen⟩ := exists_split_of_getElem? (List.getElem?_eq_getElem hi)
  refine ⟨before, _, after, has, hlen, hp, fun b hb => ?_⟩
  obtain ⟨j, hj, rfl⟩ := List.mem_iff_getElem.1 hb
  have hb := hmin j (by omega)
  rw [Bool.not_eq_true] at hb
  rw [← hb, List.getElem_of_eq has, List.getElem_append_left hj]

end List

@[simp] theorem Row.isIn_eq_true_iff {lane : Lane} {row : Row} :
    row.isIn lane = true ↔ row.entry.lane = lane := by
  simp [Row.isIn]

@[simp] theorem Row.isIn_eq_false_iff {lane : Lane} {row : Row} :
    row.isIn lane = false ↔ row.entry.lane ≠ lane := by
  simp [Row.isIn]

namespace Queue

/-- The rows of each lane are in the order of their priorities.  Lanes may be mixed. -/
def Sorted (rows : List Row) : Prop :=
  rows.Pairwise fun a b => a.entry.lane = b.entry.lane → a.entry.priority ≤ b.entry.priority

/-- A place between `before` and `after` at which a row of a lane and priority belongs. -/
structure Slot (lane : Lane) (priority : UInt64) (before after : List Row) : Prop where
  /-- The rows of the lane before it do not come after the new row. -/
  le : ∀ row ∈ before, row.entry.lane = lane → row.entry.priority ≤ priority
  /-- The rows of the lane behind it do not come before the new row. -/
  ge : ∀ row ∈ after, row.entry.lane = lane → priority ≤ row.entry.priority
  /-- It touches the lane, or is the end if the lane has no row. -/
  touches : (∃ rows row, before = rows ++ [row] ∧ row.entry.lane = lane)
    ∨ (∃ row rows, after = row :: rows ∧ row.entry.lane = lane)
    ∨ (after = [] ∧ ∀ row ∈ before, row.entry.lane ≠ lane)

/-- A place among rows is a slot. -/
def IsSlot (lane : Lane) (priority : UInt64) (rows : List Row) (place : Nat) : Prop :=
  ∃ before after, rows = before ++ after ∧ before.length = place
    ∧ Slot lane priority before after

variable {lane : Lane} {priority : UInt64} {rows before after : List Row} {row : Row}

/-- Before a row of a lane in order, there are only rows of the lane that do not come after it. -/
theorem Sorted.le_of_split (h : Sorted (before ++ row :: after)) :
    ∀ a ∈ before, a.entry.lane = row.entry.lane → a.entry.priority ≤ row.entry.priority :=
  fun a ha => (List.pairwise_append.1 h).2.2 a ha row List.mem_cons_self

/-- Behind a row of a lane in order, there are only rows of the lane that do not come before it. -/
theorem Sorted.ge_of_split (h : Sorted (before ++ row :: after)) :
    ∀ a ∈ after, row.entry.lane = a.entry.lane → row.entry.priority ≤ a.entry.priority :=
  (List.pairwise_cons.1 (List.pairwise_append.1 h).2.1).1

/-- A lane without rows has its slot at the end. -/
theorem isSlot_length (h : ∀ row ∈ rows, row.entry.lane ≠ lane) :
    IsSlot lane priority rows rows.length := by
  refine ⟨rows, [], (List.append_nil rows).symm, rfl, ?_, by simp, .inr (.inr ⟨rfl, h⟩)⟩
  exact fun row hrow hlane => absurd hlane (h row hrow)

/-- The place behind a row that does not come after the new one is a slot if all rows further
behind do. -/
theorem isSlot_behind (h : Sorted (before ++ row :: after)) (hlane : row.entry.lane = lane)
    (hle : row.entry.priority ≤ priority)
    (hafter : ∀ a ∈ after, a.entry.lane = lane → priority ≤ a.entry.priority) :
    IsSlot lane priority (before ++ row :: after) (before.length + 1) := by
  refine ⟨before ++ [row], after, by simp, by simp, ?_, hafter, .inl ⟨before, row, rfl, hlane⟩⟩
  intro a ha halane
  rcases List.mem_append.1 ha with ha | ha
  · exact UInt64.le_trans (h.le_of_split a ha (halane.trans hlane.symm)) hle
  · rw [List.mem_singleton.1 ha]
    exact hle

/-- The place before a row that does not come before the new one is a slot if no row further
before comes after the new one. -/
theorem isSlot_before (h : Sorted (before ++ row :: after)) (hlane : row.entry.lane = lane)
    (hge : priority ≤ row.entry.priority)
    (hbefore : ∀ a ∈ before, a.entry.lane = lane → a.entry.priority ≤ priority) :
    IsSlot lane priority (before ++ row :: after) before.length := by
  refine ⟨before, row :: after, rfl, rfl, hbefore, ?_, .inr (.inl ⟨row, after, rfl, hlane⟩)⟩
  intro a ha halane
  rcases List.mem_cons.1 ha with rfl | ha
  · exact hge
  · exact UInt64.le_trans hge (h.ge_of_split a ha (hlane.trans halane.symm))

/-- The last row of the lane that does not come after the new one. -/
theorem isSlot_last (h : Sorted rows) {i : Nat}
    (hi : lastIdx? (fun row => row.isIn lane && decide (row.entry.priority ≤ priority)) rows
      = some i) : IsSlot lane priority rows (i + 1) := by
  obtain ⟨before, row, after, rfl, rfl, hrow, hafter⟩ := lastIdx?_eq_some_iff.1 hi
  simp only [Bool.and_eq_true, Row.isIn_eq_true_iff, decide_eq_true_eq] at hrow
  refine isSlot_behind h hrow.1 hrow.2 ?_
  intro a ha halane
  have hno := hafter a ha
  simp only [Bool.and_eq_false_imp, Row.isIn_eq_true_iff, decide_eq_false_iff_not,
    UInt64.not_le] at hno
  exact UInt64.le_of_lt (hno halane)

/-- A place that is found for a row is not beyond the end. -/
theorem placeFor_le (lane : Lane) (priority : UInt64) (rows : List Row) :
    placeFor lane priority rows ≤ rows.length := by
  rw [placeFor]
  split
  · exact Nat.le_refl _
  · rename_i first hfirst
    obtain ⟨hlt, -⟩ := List.findIdx?_eq_some_iff_getElem.1 hfirst
    simp only
    split
    · rename_i i hi
      obtain ⟨hblock, -⟩ := List.findIdx?_eq_some_iff_getElem.1 hi
      have hle := (List.takeWhile_sublist (Row.isIn lane) (l := rows.drop first)).length_le
      rw [List.length_drop] at hle
      omega
    · split
      · rename_i i hi
        obtain ⟨before, row, after, rfl, rfl, -⟩ := lastIdx?_eq_some_iff.1 hi
        simp
      · exact Nat.le_of_lt hlt

theorem placeLoading_le (lane : Lane) (priority : UInt64) (rows : List Row) :
    placeLoading lane priority rows ≤ rows.length := by
  rw [placeLoading]
  split
  · exact Nat.le_refl _
  · rename_i i hi
    obtain ⟨before, row, after, rfl, rfl, -⟩ := lastIdx?_eq_some_iff.1 hi
    split
    · simp
    · exact placeFor_le lane priority _

theorem placeRaised_le (lane : Lane) (priority : UInt64) (rows : List Row) :
    placeRaised lane priority rows ≤ rows.length := by
  rw [placeRaised]
  split
  · rename_i i hi
    exact Nat.le_of_lt (List.findIdx?_eq_some_iff_getElem.1 hi).1
  · exact placeFor_le lane priority rows

/-- The search for the place of a new row finds a slot. -/
theorem slot_placeFor (h : Sorted rows) (lane : Lane) (priority : UInt64) :
    IsSlot lane priority rows (placeFor lane priority rows) := by
  rw [placeFor]
  split
  · rename_i hnone
    exact isSlot_length fun row hrow => by
      simpa using List.findIdx?_eq_none_iff.1 hnone row hrow
  · rename_i first hfirst
    obtain ⟨pre, head, rest, rfl, rfl, hhead, hpre⟩ := exists_split_of_findIdx? hfirst
    rw [Row.isIn_eq_true_iff] at hhead
    simp only [Row.isIn_eq_false_iff] at hpre
    simp only [List.drop_left]
    split
    · -- within the first block, a row comes after the new one
      rename_i i hi
      obtain ⟨low, row, high, hblock, rfl, hrow, hlow⟩ := exists_split_of_findIdx? hi
      have hin : ∀ a ∈ low ++ row :: high, a.entry.lane = lane := by
        rw [← hblock]
        exact fun a ha => Row.isIn_eq_true_iff.1 (List.mem_takeWhile_imp ha)
      obtain ⟨tail, htail⟩ : ∃ tail, head :: rest = low ++ row :: high ++ tail :=
        ⟨_, by rw [← hblock]; exact List.takeWhile_append_dropWhile.symm⟩
      have hrows : pre ++ head :: rest = (pre ++ low) ++ row :: (high ++ tail) := by
        rw [htail]
        simp
      rw [hrows] at h ⊢
      rw [← List.length_append]
      refine isSlot_before h (hin row (by simp)) (UInt64.le_of_lt (by simpa using hrow)) ?_
      -- before it are rows of other lanes, and then rows of the block that do not come after it
      intro a ha halane
      rcases List.mem_append.1 ha with ha | ha
      · exact absurd halane (hpre a ha)
      · simpa using hlow a ha
    · -- the first block may not be all of the lane, so the search goes on from the end
      split
      · rename_i i hi
        exact isSlot_last h hi
      · -- every row of the lane comes after the new one, which goes before the first of them
        rename_i hnone
        refine isSlot_before h hhead ?_ fun a ha halane => absurd halane (hpre a ha)
        have hno := lastIdx?_eq_none_iff.1 hnone head (by simp)
        simp only [Bool.and_eq_false_imp, Row.isIn_eq_true_iff, decide_eq_false_iff_not,
          UInt64.not_le] at hno
        exact UInt64.le_of_lt (hno hhead)

/-- The search for the place of a row that is loaded finds a slot. -/
theorem slot_placeLoading (h : Sorted rows) (lane : Lane) (priority : UInt64) :
    IsSlot lane priority rows (placeLoading lane priority rows) := by
  rw [placeLoading]
  split
  · rename_i hnone
    exact isSlot_length fun row hrow => by simpa using lastIdx?_eq_none_iff.1 hnone row hrow
  · rename_i i hi
    obtain ⟨before, row, after, rfl, rfl, hrow, hafter⟩ := lastIdx?_eq_some_iff.1 hi
    rw [Row.isIn_eq_true_iff] at hrow
    split
    · rename_i hle
      refine isSlot_behind h hrow (by simpa using hle) ?_
      intro a ha halane
      exact absurd halane (by simpa using hafter a ha)
    · exact slot_placeFor h lane priority

/-- The search for the place of a row that has got a smaller priority finds a slot. -/
theorem slot_placeRaised (h : Sorted rows) (lane : Lane) (priority : UInt64) :
    IsSlot lane priority rows (placeRaised lane priority rows) := by
  rw [placeRaised]
  split
  · rename_i i hi
    obtain ⟨before, row, after, rfl, rfl, hrow, hbefore⟩ := exists_split_of_findIdx? hi
    simp only [Bool.and_eq_true, Row.isIn_eq_true_iff, decide_eq_true_eq] at hrow
    refine isSlot_before h hrow.1 hrow.2 ?_
    intro a ha halane
    have hno := hbefore a ha
    simp only [Bool.and_eq_false_imp, Row.isIn_eq_true_iff, decide_eq_false_iff_not,
      UInt64.not_le] at hno
    exact UInt64.le_of_lt (hno halane)
  · exact slot_placeFor h lane priority

end Queue

end TransferQueue
