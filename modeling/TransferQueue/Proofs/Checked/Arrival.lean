import TransferQueue.Proofs.Checked.FinishTime

/-!
# Checked reports

A place that is found for a row is one behind a row, or behind the last.  A row is found by its
transfer, so it is there; when it moves, the place where it goes is found among the rows without it.  So
no new place is beyond the end, and the row behind it has a number.

* `Queue.checkedPlaceFor_eq`, `Queue.checkedPlaceLoading_eq`, `Queue.checkedPlaceRaised_eq`: the searches;
* `Queue.checkedInsert_eq`, `Queue.checkedStart_eq`: new rows;
* `Queue.checkedUpdate_eq`, `Queue.checkedFinish_eq`: reports on shown transfers.
-/

namespace TransferQueue

theorem lt_length_of_lastIdx? {α : Type} {p : α → Bool} {as : List α} {last : Nat}
    (h : lastIdx? p as = some last) : last < as.length := by
  obtain ⟨before, a, after, rfl, rfl, -⟩ := lastIdx?_eq_some_iff.1 h
  simp

namespace Queue

variable {weight : Float} {q : Queue} {r : Report} {lane : Lane} {priority : UInt64} {rows : List Row}
  {place : Nat}

/-! ## Places -/

/-- Walk on from the row `place`, with which `rows` begin, through the rows of a lane, to the first that
comes after the priority. -/
def checkedWalk (lane : Lane) (priority : UInt64) : Nat → List Row → Checked (Option Nat)
  | _, [] => pure none
  | place, row :: rows =>
    if row.isIn lane then
      if priority < row.entry.priority then pure (some place)
      else do
        let next ← Checked.add place 1
        checkedWalk lane priority next rows
    else pure none

/-- The place of a transfer behind the rows of its lane that do not come after it. -/
def checkedPlaceFor (lane : Lane) (priority : UInt64) (rows : List Row) : Checked Nat :=
  match rows.findIdx? (Row.isIn lane) with
  | none => pure rows.length
  | some first => do
    match ← checkedWalk lane priority first (rows.drop first) with
    | some place => pure place
    | none =>
      match lastIdx? (fun row => row.isIn lane && row.entry.priority ≤ priority) rows with
      | some last => Checked.add last 1
      | none => pure first

/-- The place of a transfer of a listing. -/
def checkedPlaceLoading (lane : Lane) (priority : UInt64) (rows : List Row) : Checked Nat :=
  match lastIdx? (Row.isIn lane) rows with
  | none => pure rows.length
  | some last => do
    let row ← Checked.fetch rows last
    if row.entry.priority ≤ priority then Checked.add last 1
    else checkedPlaceFor lane priority rows

/-- The place of a transfer that has got a smaller priority. -/
def checkedPlaceRaised (lane : Lane) (priority : UInt64) (rows : List Row) : Checked Nat :=
  match rows.findIdx? fun row => row.isIn lane && priority ≤ row.entry.priority with
  | some place => pure place
  | none => checkedPlaceFor lane priority rows

/-- The walk goes through the rows of the lane with which the rows begin. -/
theorem checkedWalk_eq (h : place + rows.length < UInt64.size) :
    checkedWalk lane priority place rows
      = .ok (((rows.takeWhile (Row.isIn lane)).findIdx? fun row => priority < row.entry.priority).map
          (place + ·)) := by
  induction rows generalizing place with
  | nil => rfl
  | cons row rows ih =>
    rw [List.length_cons] at h
    rw [checkedWalk, List.takeWhile_cons]
    split
    · rw [List.findIdx?_cons]
      by_cases hafter : priority < row.entry.priority
      · rw [if_pos hafter, if_pos (decide_eq_true hafter)]
        rfl
      · rw [if_neg hafter, if_neg (by simpa using hafter), Checked.add_eq (by omega),
          Checked.ok_bind, ih (by omega), Option.map_map]
        congr 2
        funext i
        exact Nat.add_right_comm place 1 i
    · rfl

theorem checkedPlaceFor_eq (h : rows.length < UInt64.size) :
    checkedPlaceFor lane priority rows = .ok (placeFor lane priority rows) := by
  rw [checkedPlaceFor, placeFor]
  rcases hfirst : rows.findIdx? (Row.isIn lane) with _ | first
  · rfl
  · have hlt : first < rows.length := (List.findIdx?_eq_some_iff_getElem.1 hfirst).1
    have hbound : first + (rows.drop first).length < UInt64.size := by
      rw [List.length_drop]
      omega
    dsimp only
    rw [checkedWalk_eq hbound, Checked.ok_bind]
    cases hafter : ((rows.drop first).takeWhile (Row.isIn lane)).findIdx?
        (fun row => priority < row.entry.priority) with
    | some i => rfl
    | none =>
      cases hlast : lastIdx? (fun row => row.isIn lane && row.entry.priority ≤ priority) rows with
      | some last =>
        have hend := lt_length_of_lastIdx? hlast
        exact Checked.add_eq (by omega)
      | none => rfl

theorem checkedPlaceLoading_eq (h : rows.length < UInt64.size) :
    checkedPlaceLoading lane priority rows = .ok (placeLoading lane priority rows) := by
  rw [checkedPlaceLoading, placeLoading]
  rcases hlast : lastIdx? (Row.isIn lane) rows with _ | last
  · rfl
  · have hend := lt_length_of_lastIdx? hlast
    have hrow : rows[last]? = some rows[last] := List.getElem?_eq_getElem hend
    dsimp only
    rw [Checked.fetch_eq hrow, Checked.ok_bind, hrow, Option.any_some]
    by_cases hle : rows[last].entry.priority ≤ priority
    · rw [if_pos hle, if_pos (decide_eq_true hle), Checked.add_eq (by omega)]
    · rw [if_neg hle, if_neg (by simpa using hle), checkedPlaceFor_eq h]

theorem checkedPlaceRaised_eq (h : rows.length < UInt64.size) :
    checkedPlaceRaised lane priority rows = .ok (placeRaised lane priority rows) := by
  rw [checkedPlaceRaised, placeRaised]
  cases rows.findIdx? (fun row => row.isIn lane && priority ≤ row.entry.priority) with
  | some place => rfl
  | none => exact checkedPlaceFor_eq h

/-! ## New rows -/

/-- The queue with a new row. -/
def checkedAdd (weight : Float) (r : Report) (place : Nat) (q : Queue) :
    Checked (Except Overflow (Option Queue)) :=
  if q.contains r.tag then pure (.ok none)
  else if q.size < place then pure (.ok none)
  else
    match Row.ofReport weight r with
    | .error e => pure (.error e)
    | .ok row => do
      let rows ← Checked.insertAt q.rows place row
      pure (.ok (some { q with rows, tally := q.tally.add row.entry }))

/-- Show a transfer at a place of the caller's choice. -/
def checkedInsert (weight : Float) (r : Report) (place : Nat) (q : Queue) :
    Checked (Outcome Queue (Except Overflow Bool)) := do
  match ← q.checkedAdd weight r place with
  | .error _ => pure q.overflow
  | .ok none => pure q.refuse
  | .ok (some q') => pure ⟨q', .ok true, q'.arrived place, []⟩

/-- Take in the report of a new transfer. -/
def checkedStart (weight : Float) (r : Report) (q : Queue) :
    Checked (Outcome Queue (Except Overflow Bool)) :=
  if q.hasSeen r.number then pure q.refuse
  else do
    let place ← checkedPlaceFor r.lane r.priority q.rows
    match ← q.checkedAdd weight r place with
    | .error _ => pure q.overflow
    | .ok none => pure { q with watermark := r.number }.refuse
    | .ok (some q') => pure ⟨{ q' with watermark := r.number }, .ok true, q'.arrived place, []⟩

/-- Whatever the place, a row comes only where one can come. -/
theorem checkedAdd_eq (weight : Float) (r : Report) (place : Nat) (q : Queue) :
    q.checkedAdd weight r place = .ok (q.add weight r place) := by
  rw [checkedAdd, add]
  by_cases hshown : q.contains r.tag = true
  · rw [if_pos hshown, hshown, Bool.true_or, if_pos rfl]
    rfl
  · rw [if_neg hshown, Bool.eq_false_of_not_eq_true hshown, Bool.false_or]
    by_cases hbeyond : q.size < place
    · rw [if_pos hbeyond, if_pos (decide_eq_true hbeyond)]
      rfl
    · rw [if_neg hbeyond, if_neg (by simpa using hbeyond)]
      rcases Row.ofReport weight r with e | row
      · rfl
      · dsimp only
        rw [Checked.insertAt_eq (Nat.not_lt.1 hbeyond)]
        rfl

theorem checkedInsert_eq (weight : Float) (r : Report) (place : Nat) (q : Queue) :
    q.checkedInsert weight r place = .ok (q.insert weight r place) := by
  rw [checkedInsert, checkedAdd_eq, Checked.ok_bind, insert]
  rcases q.add weight r place with e | _ | q' <;> rfl

theorem checkedStart_eq (h : q.size < UInt64.size) :
    q.checkedStart weight r = .ok (q.start weight r) := by
  rw [checkedStart, start]
  split
  · rfl
  · rw [checkedPlaceFor_eq h, Checked.ok_bind, checkedAdd_eq, Checked.ok_bind]
    dsimp only
    rcases q.add weight r (placeFor r.lane r.priority q.rows) with e | _ | q' <;> rfl

/-! ## Reports on shown transfers -/

/-- Take in a report on a shown transfer. -/
def checkedTakeIn (r : Report)
    (act : Queue → Nat → Row → Checked (Outcome Queue (Except Overflow Bool))) (q : Queue) :
    Checked (Outcome Queue (Except Overflow Bool)) :=
  if q.hasSeen r.number then pure q.refuse
  else
    let q := { q with watermark := r.number }
    match q.locate? r.tag with
    | none => pure q.refuse
    | some (place, row) => act q place row

/-- Whether the row at `place` has moved, and where to. -/
def checkedMovedOrUpdated (place target : Nat) : Checked Change :=
  if target = place then pure (.updated place)
  else do
    let destination ← if place < target then Checked.add target 1 else pure target
    pure (.moved place place destination)

/-- The place of a row that had the priority `before` among the others. -/
def checkedTarget (before : UInt64) (row : Row) (rest : List Row) : Checked Nat :=
  if row.entry.priority < before then checkedPlaceRaised row.entry.lane row.entry.priority rest
  else checkedPlaceFor row.entry.lane row.entry.priority rest

/-- Put the row at `place`, which had the priority `before`, where it now belongs. -/
def checkedSettle (place : Nat) (before : UInt64) (row : Row) (q : Queue) :
    Checked (Outcome Queue (Except Overflow Bool)) :=
  if row.entry.priority = before then pure ⟨q, .ok true, [.updated place], []⟩
  else do
    let rest ← Checked.removeAt q.rows place
    let target ← checkedTarget before row rest
    let rows ← Checked.insertAt rest target row
    let change ← checkedMovedOrUpdated place target
    pure ⟨{ q with rows }, .ok true, [change], []⟩

/-- Take in a report on progress. -/
def checkedUpdate (weight : Float) (r : Report) :
    Queue → Checked (Outcome Queue (Except Overflow Bool)) :=
  checkedTakeIn r fun q place row =>
    if row.entry.isAheadOf r then pure q.refuse
    else
      match row.refresh weight r r.lastFault with
      | .error row' => pure (q.replaceRow place row.entry.phase row').overflow
      | .ok row' =>
        let row' := row'.withPriority r.priority
        (q.replaceRow place row.entry.phase row').checkedSettle place row.entry.priority row'

/-- Take in the report of the end. -/
def checkedFinish (now : Instant) (r : Report) (fault : Option Fault) :
    Queue → Checked (Outcome Queue (Except Overflow Bool)) :=
  checkedTakeIn r fun q place row => do
    let finishedAt ← r.checkedFinishTime now
    pure ⟨q.replaceRow place row.entry.phase (row.finish finishedAt r fault), .ok true,
      [.updated place], []⟩

/-- A report is taken in without a trap if what follows at its row is. -/
theorem checkedTakeIn_eq
    {act : Queue → Nat → Row → Outcome Queue (Except Overflow Bool)}
    {checkedAct : Queue → Nat → Row → Checked (Outcome Queue (Except Overflow Bool))}
    (h : ∀ q' place row, q'.rows = q.rows → place < q'.size →
      checkedAct q' place row = .ok (act q' place row)) :
    checkedTakeIn r checkedAct q = .ok (takeIn r act q) := by
  simp only [checkedTakeIn, takeIn]
  split
  · rfl
  · rcases hlocate : ({ q with watermark := r.number } : Queue).locate? r.tag with _ | ⟨place, row⟩
    · rfl
    · exact h _ _ row rfl (lt_size_of_locate? hlocate)

theorem checkedMovedOrUpdated_eq {target : Nat} (h : target + 1 < UInt64.size) :
    checkedMovedOrUpdated place target = .ok (movedOrUpdated place target) := by
  rw [checkedMovedOrUpdated, movedOrUpdated]
  split
  · rfl
  · split
    · rw [Checked.add_eq h]
      rfl
    · rfl

theorem checkedTarget_eq (before : UInt64) (row : Row) (h : rows.length < UInt64.size) :
    ∃ target ≤ rows.length, checkedTarget before row rows = .ok target
      ∧ (if row.entry.priority < before then placeRaised row.entry.lane row.entry.priority rows
        else placeFor row.entry.lane row.entry.priority rows) = target := by
  rw [checkedTarget]
  split
  · exact ⟨_, placeRaised_le _ _ _, checkedPlaceRaised_eq h, rfl⟩
  · exact ⟨_, placeFor_le _ _ _, checkedPlaceFor_eq h, rfl⟩

/-- Without the row that moves there are fewer rows, so there is a number behind each place. -/
theorem checkedSettle_eq {row : Row} {before : UInt64} (h : q.size < UInt64.size)
    (hplace : place < q.size) :
    q.checkedSettle place before row = .ok (q.settle place before row) := by
  have hrest : (q.rows.eraseIdx place).length + 1 = q.size := by
    rw [List.length_eraseIdx_of_lt hplace]
    exact Nat.sub_add_cancel (Nat.zero_lt_of_lt hplace)
  have hless : (q.rows.eraseIdx place).length < UInt64.size := by omega
  obtain ⟨target, hle, hchecked, htarget⟩ := checkedTarget_eq before row hless
  simp only [checkedSettle, settle]
  split
  · rfl
  · rw [Checked.removeAt_eq hplace, Checked.ok_bind, hchecked, Checked.ok_bind,
      Checked.insertAt_eq hle, Checked.ok_bind, checkedMovedOrUpdated_eq (by omega), htarget]
    rfl

theorem size_replaceRow (q : Queue) (place : Nat) (phase : Phase) (row : Row) :
    (q.replaceRow place phase row).size = q.size := List.length_set

theorem checkedUpdate_eq (h : q.size < UInt64.size) :
    q.checkedUpdate weight r = .ok (q.update weight r) := by
  refine checkedTakeIn_eq fun q' place row hrows hplace => ?_
  have hsize : q'.size < UInt64.size := by
    rw [size, hrows]
    exact h
  split
  · rfl
  · rcases row.refresh weight r r.lastFault with row' | row'
    · rfl
    · rw [← size_replaceRow q' place row.entry.phase (row'.withPriority r.priority)] at hsize hplace
      exact checkedSettle_eq hsize hplace

theorem checkedFinish_eq (now : Instant) (r : Report) (fault : Option Fault) (q : Queue) :
    q.checkedFinish now r fault = .ok (q.finish now r fault) := by
  refine checkedTakeIn_eq fun q' place row _ _ => ?_
  rw [Report.checkedFinishTime_eq]
  rfl

end Queue

end TransferQueue
