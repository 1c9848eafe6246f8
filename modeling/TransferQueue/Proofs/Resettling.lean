import TransferQueue.Proofs.Order
import TransferQueue.Proofs.RoundTrip
import TransferQueue.Proofs.Scan

/-!
# Where a row goes that gets another priority

A row that gets another priority is taken out and put back where it then belongs.  Among rows of its own
priority it comes first if its priority has become smaller, and last if it has become greater.  The
searches look at the rows without it, but observers are told of a move in the row numbers of before, so
the place that is found has to be counted anew.

* `Queue.LandsForward`, `Queue.LandsBack`: the places for a smaller and for a greater priority;
* `Queue.landsForward_placeRaised`, `Queue.landsBack_placeFor`: the searches find them;
* `Queue.settle_lands`: how a row is put back;
* `Board.priority_change`: what a report with another priority does, and what is told of it.
-/

namespace TransferQueue

namespace Queue

/-! ## Places -/

/-- Between the other rows `low` and `high` is the place of a row of the lane that has come forward to
the priority. -/
inductive LandsForward (lane : Lane) (priority : UInt64) : List Row → List Row → Prop where
  /-- It stands directly before the first row of its lane that does not come before it. -/
  | before {low high : List Row} {row : Row} (hlane : row.entry.lane = lane)
    (hge : priority ≤ row.entry.priority)
    (hlow : ∀ a ∈ low, a.entry.lane = lane → a.entry.priority < priority) :
    LandsForward lane priority low (row :: high)
  /-- All rows of its lane come before it, and it stands directly behind the last of them. -/
  | behindLast {low high : List Row} {row : Row} (hlane : row.entry.lane = lane)
    (hlow : ∀ a ∈ low ++ [row], a.entry.lane = lane → a.entry.priority < priority)
    (hhigh : ∀ a ∈ high, a.entry.lane ≠ lane) : LandsForward lane priority (low ++ [row]) high
  /-- There is no other row of its lane, and it stands at the end. -/
  | atEnd {low : List Row} (hlow : ∀ a ∈ low, a.entry.lane ≠ lane) : LandsForward lane priority low []

/-- Between the other rows `low` and `high` is the place of a row of the lane that has gone back to the
priority. -/
inductive LandsBack (lane : Lane) (priority : UInt64) : List Row → List Row → Prop where
  /-- It stands directly behind the last row of its lane that does not come after it. -/
  | behind {low high : List Row} {row : Row} (hlane : row.entry.lane = lane)
    (hle : row.entry.priority ≤ priority)
    (hhigh : ∀ a ∈ high, a.entry.lane = lane → priority < a.entry.priority) :
    LandsBack lane priority (low ++ [row]) high
  /-- All rows of its lane come after it, and it stands directly before the first of them. -/
  | beforeFirst {low high : List Row} {row : Row} (hlane : row.entry.lane = lane)
    (hlow : ∀ a ∈ low, a.entry.lane ≠ lane)
    (hhigh : ∀ a ∈ row :: high, a.entry.lane = lane → priority < a.entry.priority) :
    LandsBack lane priority low (row :: high)
  /-- There is no other row of its lane, and it stands at the end. -/
  | atEnd {low : List Row} (hlow : ∀ a ∈ low, a.entry.lane ≠ lane) : LandsBack lane priority low []

variable {lane : Lane} {priority : UInt64} {rows before after low high : List Row} {row : Row}

/-- Where all rows of the lane come before the row, it makes no difference from where it comes. -/
theorem LandsBack.landsForward (h : LandsBack lane priority low high)
    (hless : ∀ a ∈ low ++ high, a.entry.lane = lane → a.entry.priority < priority) :
    LandsForward lane priority low high := by
  cases h with
  | behind hlane hle hhigh =>
    refine .behindLast hlane (fun a ha => hless a (List.mem_append_left _ ha)) ?_
    intro a ha halane
    exact absurd (hless a (List.mem_append_right _ ha) halane)
      (UInt64.lt_asymm (hhigh a ha halane))
  | @beforeFirst _ high row hlane hlow hhigh =>
    have hmem : row ∈ row :: high := List.mem_cons_self
    exact absurd (hless row (List.mem_append_right _ hmem) hlane)
      (UInt64.lt_asymm (hhigh row hmem hlane))
  | atEnd hlow => exact .atEnd hlow

/-! ## Searches -/

theorem landsBack_placeBehind (lane : Lane) (priority : UInt64) (rows : List Row) :
    ∃ low high, rows = low ++ high ∧ low.length = placeBehind lane priority rows
      ∧ LandsBack lane priority low high := by
  rw [placeBehind]
  rcases hlast : lastIdx? (isUpTo lane priority) rows with _ | i
  · -- no row of the lane is up to the priority, so the first one of the lane is looked for
    have hmore : ∀ a ∈ rows, a.entry.lane = lane → priority < a.entry.priority := by
      intro a ha
      exact isUpTo_eq_false_iff.1 (lastIdx?_eq_none_iff.1 hlast a ha)
    rcases hfirst : rows.findIdx? (Row.isIn lane) with _ | i
    · refine ⟨rows, [], (List.append_nil rows).symm, rfl, .atEnd fun a ha => ?_⟩
      exact Row.isIn_eq_false_iff.1 (List.findIdx?_eq_none_iff.1 hfirst a ha)
    · obtain ⟨low, row, high, rfl, rfl, hrow, hlow⟩ := exists_split_of_findIdx? hfirst
      refine ⟨low, row :: high, rfl, rfl, .beforeFirst (Row.isIn_eq_true_iff.1 hrow) ?_ ?_⟩
      · exact fun a ha => Row.isIn_eq_false_iff.1 (hlow a ha)
      · exact fun a ha => hmore a (List.mem_append_right _ ha)
  · obtain ⟨low, row, high, rfl, rfl, hrow, hhigh⟩ := lastIdx?_eq_some_iff.1 hlast
    obtain ⟨hlane, hle⟩ := isUpTo_eq_true_iff.1 hrow
    refine ⟨low ++ [row], high, by simp, by simp, .behind hlane hle ?_⟩
    exact fun a ha => isUpTo_eq_false_iff.1 (hhigh a ha)

/-- The search for a row whose priority has become greater. -/
theorem landsBack_placeFor (h : Sorted rows) (lane : Lane) (priority : UInt64) :
    ∃ low high, rows = low ++ high ∧ low.length = placeFor lane priority rows
      ∧ LandsBack lane priority low high := by
  rw [placeFor_eq_placeBehind h]
  exact landsBack_placeBehind lane priority rows

/-- The search for a row whose priority has become smaller. -/
theorem landsForward_placeRaised (h : Sorted rows) (lane : Lane) (priority : UInt64) :
    ∃ low high, rows = low ++ high ∧ low.length = placeRaised lane priority rows
      ∧ LandsForward lane priority low high := by
  rw [placeRaised]
  split
  · rename_i i hi
    obtain ⟨low, row, high, rfl, rfl, hrow, hlow⟩ := exists_split_of_findIdx? hi
    simp only [Bool.and_eq_true, Row.isIn_eq_true_iff, decide_eq_true_eq] at hrow
    refine ⟨low, row :: high, rfl, rfl, .before hrow.1 hrow.2 ?_⟩
    intro a ha halane
    have hno := hlow a ha
    simp only [Bool.and_eq_false_imp, Row.isIn_eq_true_iff, decide_eq_false_iff_not,
      UInt64.not_le] at hno
    exact hno halane
  · -- all rows of the lane come before the row, which the other search puts behind them
    rename_i hnone
    have hless : ∀ a ∈ rows, a.entry.lane = lane → a.entry.priority < priority := by
      intro a ha
      have hno := List.findIdx?_eq_none_iff.1 hnone a ha
      simpa only [Bool.and_eq_false_imp, Row.isIn_eq_true_iff, decide_eq_false_iff_not,
        UInt64.not_le] using hno
    obtain ⟨low, high, rfl, hlength, hlands⟩ := landsBack_placeFor h lane priority
    exact ⟨low, high, rfl, hlength, hlands.landsForward hless⟩

/-- A row whose priority is no longer the one of before is taken out and put back. -/
theorem settle_lands {q : Queue} (hrows : q.rows = before ++ row :: after)
    (sorted : Sorted (before ++ after)) (hne : row.entry.priority ≠ priority) :
    ∃ low high, low ++ high = before ++ after
      ∧ (row.entry.priority < priority →
          LandsForward row.entry.lane row.entry.priority low high)
      ∧ (priority < row.entry.priority → LandsBack row.entry.lane row.entry.priority low high)
      ∧ q.settle before.length priority row
        = ⟨{ q with rows := low ++ row :: high }, .ok true,
            [movedOrUpdated before.length low.length], []⟩ := by
  simp only [settle, hrows, eraseIdx_append_length, if_neg hne]
  by_cases hless : row.entry.priority < priority
  · obtain ⟨low, high, hsplit, hlength, hlands⟩ :=
      landsForward_placeRaised sorted row.entry.lane row.entry.priority
    refine ⟨low, high, hsplit.symm, fun _ => hlands, ?_, ?_⟩
    · exact fun hmore => absurd hless (UInt64.lt_asymm hmore)
    · rw [if_pos hless, ← hlength, hsplit, insertIdx_append_length]
  · obtain ⟨low, high, hsplit, hlength, hlands⟩ :=
      landsBack_placeFor sorted row.entry.lane row.entry.priority
    refine ⟨low, high, hsplit.symm, fun h => absurd h hless, fun _ => hlands, ?_⟩
    rw [if_neg hless, ← hlength, hsplit, insertIdx_append_length]

end Queue

namespace Board

open Queue (LandsForward LandsBack)

/-- A report that is not late and brings another priority takes the row of its transfer out and puts it
back where it then belongs in the lane of the row; the other rows stay in their order.  One change is
told: that the row has moved, before a row of the sequence of before, or that it was updated if it is
where it was. -/
theorem priority_change {b : Board} (reached : b.Reached) (ordered : Queue.Ordered b.queue.rows)
    {action : Action} {r : Report} (progress : action.progress? = some r)
    (new : b.queue.watermark < r.number) {before after : List Row} {row : Row}
    (hrows : b.queue.rows = before ++ row :: after) (htag : row.tag = r.tag)
    (changed : r.priority ≠ row.entry.priority)
    (calm : (b.perform action).answer ≠ .overflow) :
    ∃ low row' high, (b.perform action).state.queue.rows = low ++ row' :: high
      ∧ low ++ high = before ++ after
      ∧ row'.tag = row.tag ∧ row'.entry.lane = row.entry.lane ∧ row'.entry.priority = r.priority
      ∧ (r.priority < row.entry.priority → LandsForward row.entry.lane r.priority low high)
      ∧ (row.entry.priority < r.priority → LandsBack row.entry.lane r.priority low high)
      ∧ if low.length = before.length then
          (b.perform action).changes = [.updated before.length]
        else
          ∃ destination, (b.perform action).changes
              = [.moved before.length before.length destination]
            ∧ destination = (if before.length < low.length then low.length + 1 else low.length)
            ∧ moveBlock b.queue.tags before.length 1 destination
              = (b.perform action).state.queue.tags := by
  have hseen : b.queue.hasSeen r.number = false := by simpa [Queue.hasSeen] using new
  have hcalm := ne_tooLong_of_progress? progress calm
  have hperform := perform_of_progress? (b := b) progress
  rcases Queue.update_cases reached.balanced.nodup hrows htag hseen hcalm with
    ⟨hahead, -⟩ | ⟨row', q', htag', hlane', hpriority', hrows', hupdate⟩
  · -- a row is ahead of reports with its own priority only
    simp only [Entry.isAheadOf, Bool.and_eq_true, beq_iff_eq] at hahead
    exact absurd hahead.1.2.symm changed
  · -- the searches run over the other rows, which are sorted as all rows are
    have hsorted : Queue.Sorted (before ++ after) := by
      refine ordered.sorted.sublist ?_
      rw [hrows]
      exact (List.Sublist.refl before).append (List.sublist_cons_self row after)
    obtain ⟨low, high, hsplit, hforward, hback, hsettle⟩ :=
      Queue.settle_lands hrows' hsorted (hpriority'.symm ▸ changed)
    rw [hpriority', hlane'] at hforward hback
    have hstate : (b.perform action).state.queue.rows = low ++ row' :: high := by
      rw [hperform]
      show (b.queue.update b.config.paceWeight r).state.rows = _
      rw [hupdate, hsettle]
    have hchanges : (b.perform action).changes
        = [Queue.movedOrUpdated before.length low.length] := by
      rw [hperform]
      show (b.queue.update b.config.paceWeight r).changes = _
      rw [hupdate, hsettle]
    refine ⟨low, row', high, hstate, hsplit, htag'.trans htag.symm, hlane', hpriority', hforward,
      hback, ?_⟩
    rw [hchanges, Queue.movedOrUpdated]
    -- the row is told as moved only if its place has another number
    by_cases hsame : low.length = before.length
    · rw [if_pos hsame, if_pos hsame]
    · rw [if_neg hsame, if_neg hsame]
      refine ⟨_, rfl, rfl, ?_⟩
      have hrest : low.map Row.tag ++ high.map Row.tag = before.map Row.tag ++ after.map Row.tag := by
        rw [← List.map_append, hsplit, List.map_append]
      have hmove := moveBlock_single row.tag hrest
      simp only [List.length_map] at hmove
      have htags : b.queue.tags = before.map Row.tag ++ row.tag :: after.map Row.tag := by
        rw [Queue.tags, hrows, List.map_append, List.map_cons]
      have htags' : (b.perform action).state.queue.tags
          = low.map Row.tag ++ row.tag :: high.map Row.tag := by
        rw [Queue.tags, hstate, List.map_append, List.map_cons, htag', htag]
      rw [htags, htags', hmove]

/-- A board with two rows of each lane. -/
def twoLanes : Board :=
  ((new {} (.memory false)).run
    [.hear .epoch (.started (.bare 1 .download 10 1)),
      .hear .epoch (.started (.bare 2 .download 20 2)),
      .hear .epoch (.started (.bare 3 .upload 5 3)),
      .hear .epoch (.started (.bare 4 .upload 7 4)),
      .hear .epoch (.started (.bare 5 .download 20 5))]).state

theorem ordered_twoLanes : Queue.Ordered twoLanes.queue.rows where
  sorted := by
    unfold Queue.Sorted
    decide +kernel
  together := by
    have hlanes : twoLanes.queue.rows.map (·.entry.lane)
        = [.download, .download, .download, .upload, .upload] := by decide +kernel
    rw [hlanes]
    intro a b hab
    have ha : a = .download ∨ a = .upload := by simpa using hab.subset List.mem_cons_self
    have hb : b = .download ∨ b = .upload := by
      simpa using hab.subset (List.mem_cons_of_mem a List.mem_cons_self)
    rcases ha with rfl | rfl <;> rcases hb with rfl | rfl <;> revert hab <;> decide

theorem priority_change_twoLanes :
    let o := twoLanes.perform (.hear .epoch (.updated (.bare 1 .download 20 6)))
    ∃ low row' high, o.state.queue.rows = low ++ row' :: high ∧ row'.tag = 1
      ∧ LandsBack .download 20 low high ∧ o.changes = [.moved 0 0 3]
      ∧ moveBlock twoLanes.queue.tags 0 1 3 = o.state.queue.tags := by
  intro o
  have hhead : (twoLanes.queue.rows.head?.map fun row =>
      (row.tag, row.entry.lane, row.entry.priority)) = some (1, .download, 10) := by decide +kernel
  have hchanges : o.changes = [.moved 0 0 3] := by decide +kernel
  rcases hrows : twoLanes.queue.rows with _ | ⟨row, after⟩
  · rw [hrows] at hhead
    cases hhead
  · rw [hrows, List.head?_cons, Option.map_some, Option.some.injEq, Prod.mk.injEq,
      Prod.mk.injEq] at hhead
    obtain ⟨htag, hlane, hpriority⟩ := hhead
    have progress : Action.progress? (.hear .epoch (.updated (.bare 1 .download 20 6)))
        = some (.bare 1 .download 20 6) := rfl
    have reached : twoLanes.Reached := ⟨_, _, _, rfl⟩
    have hsplit : twoLanes.queue.rows = [] ++ row :: after := hrows
    obtain ⟨low, row', high, hrows', -, htag', -, -, -, hback, htold⟩ :=
      priority_change reached ordered_twoLanes progress (by decide +kernel) hsplit htag
        (by rw [hpriority]; decide) (by decide +kernel)
    rw [hlane, hpriority] at hback
    refine ⟨low, row', high, hrows', htag'.trans htag, hback (by decide), hchanges, ?_⟩
    -- observers are told of a move, so the row is not where it was
    split at htold
    · exact absurd (htold.symm.trans hchanges) (by decide)
    · obtain ⟨destination, htold, -, hmove⟩ := htold
      have hdestination := htold.symm.trans hchanges
      simp only [List.length_nil, List.cons.injEq, Change.moved.injEq, true_and, and_true]
        at hdestination
      rwa [hdestination] at hmove

end Board

end TransferQueue
