import TransferQueue.Proofs.Checked.Loading
import TransferQueue.Proofs.Checked.Reorder
import TransferQueue.Proofs.Encounters

/-!
# No action goes beyond the rows

Each action is done once more in checked steps, in which every number is a word and every row that is
sought by its number has to be there.  The checked actions come to their end and do the same.  So it does
not matter to a board which numbers it is given: an action at a place that is not there is refused, and of
a list of rows, those that are not there do not count.

* `Board.checkedPerform`: the actions in checked steps;
* `Action.IsOutside`, `Action.within`: actions that name rows which are not there;
* `Board.stays_in_range`: no step of an action is a trap.
-/

namespace TransferQueue

namespace Board

variable {α : Type} {b : Board}

/-! ## Actions in checked steps -/

/-- What a checked operation on the queue does to the board. -/
def checkedOnQueue (b : Board) (op : Queue → Checked (Outcome Queue α)) :
    Checked (Outcome Board α) := do
  let o ← op b.queue
  pure (o.mapState fun queue => { b with queue })

/-- Take in the report of a new transfer. -/
def checkedStart (r : Report) (b : Board) : Checked (Outcome Board (Except Overflow Bool)) := do
  let o ← b.checkedOnQueue (Queue.checkedStart b.config.paceWeight r)
  match o.answer with
  | .ok true =>
    if b.allPaused && r.phase.canPause then
      pure { o with commands := o.commands ++ [.pause r.tag true] }
    else pure o
  | _ => pure o

/-- Take in an event at the moment `now`.  A passing fault leaves its row where it is. -/
def checkedTakeIn (now : Instant) (event : Event) (b : Board) :
    Checked (Outcome Board (Except Overflow Bool)) :=
  match event with
  | .started r => b.checkedStart r
  | .updated r => b.checkedOnQueue (Queue.checkedUpdate b.config.paceWeight r)
  | .hindered r fault => pure (b.onQueue (Queue.hinder b.config.paceWeight r fault))
  | .finished r fault => b.checkedOnQueue (Queue.checkedFinish now r fault)

/-- Take in an event at the moment `now` if it is about a transfer of a kind that is shown. -/
def checkedHear (now : Instant) (event : Event) (b : Board) :
    Checked (Outcome Board (Except Overflow Bool)) :=
  if event.report.isShown then b.checkedTakeIn now event else pure ⟨b, .ok false, [], []⟩

/-- Take in events one after the other, until a time cannot be expressed. -/
def checkedHearAll (now : Instant) :
    List Event → Board → Checked (Outcome Board (Except Overflow Unit))
  | [], b => pure ⟨b, .ok (), [], []⟩
  | event :: events, b => do
    let first ← b.checkedHear now event
    match first.answer with
    | .error e => pure (first.mapAnswer fun _ => .error e)
    | .ok _ => do
      let rest ← checkedHearAll now events first.state
      pure (rest.after first)

/-- What an action does.  Those for which nothing is said here find rows by their transfers, or go on
without a row if there is none with a number. -/
def checkedPerform (b : Board) : Action → Checked (Outcome Board Answer)
  | .hear now event => do pure ((← b.checkedHear now event).mapAnswer (.ofExcept .flag))
  | .hearAll now events => do
    pure ((← b.checkedHearAll now events).mapAnswer (.ofExcept fun _ => .done))
  | .takeIn now event => do pure ((← b.checkedTakeIn now event).mapAnswer (.ofExcept .flag))
  | .load size listing => do
    let o ← b.checkedOnQueue (Queue.checkedLoadListing b.config.paceWeight size listing)
    pure (o.mapAnswer (.ofExcept .count))
  | .insert report place => do
    let o ← b.checkedOnQueue (Queue.checkedInsert b.config.paceWeight report place)
    pure (o.mapAnswer (.ofExcept .flag))
  | .eraseRows rows => do
    pure ((← b.checkedOnQueue (Queue.checkedEraseRows rows)).mapAnswer .count)
  | .eraseRange first count => do
    pure ((← b.checkedOnQueue (Queue.checkedEraseRange first count)).mapAnswer .flag)
  | .moveRange first count destination => do
    pure ((← b.checkedOnQueue (Queue.checkedMoveRange first count destination)).mapAnswer .flag)
  | .moveSelection rows destination => do
    pure ((← b.checkedOnQueue (Queue.checkedMoveSelection rows destination)).mapAnswer .flag)
  | .dismiss rows cancel clear => do
    pure ((← b.checkedOnQueue (Queue.checkedDismiss rows cancel clear)).mapAnswer fun _ => .done)
  | .restart tag => do pure ((← b.checkedOnQueue (Queue.checkedRestart tag)).mapAnswer .flag)
  | action => pure (b.perform action)

theorem checkedOnQueue_eq (op : Queue → Outcome Queue α)
    {checkedOp : Queue → Checked (Outcome Queue α)} (h : checkedOp b.queue = .ok (op b.queue)) :
    b.checkedOnQueue checkedOp = .ok (b.onQueue op) := by
  rw [checkedOnQueue, h]
  rfl

theorem Reached.size_lt (h : b.Reached) : b.queue.size < UInt64.size :=
  Queue.size_lt_of_nodup h.balanced.nodup

theorem checkedTakeIn_eq (h : b.Reached) (now : Instant) (event : Event) :
    b.checkedTakeIn now event = .ok (b.takeIn now event) := by
  cases event with
  | started r =>
    have hstart := checkedOnQueue_eq (Queue.start b.config.paceWeight r)
      (Queue.checkedStart_eq h.size_lt)
    rw [checkedTakeIn, checkedStart, hstart, Checked.ok_bind, takeIn, start]
    rcases (b.onQueue (Queue.start b.config.paceWeight r)).answer with e | _ | _
    · rfl
    · rfl
    · dsimp only
      split <;> rfl
  | updated r => exact checkedOnQueue_eq _ (Queue.checkedUpdate_eq h.size_lt)
  | hindered r fault => rfl
  | finished r fault => exact checkedOnQueue_eq _ (Queue.checkedFinish_eq now r fault b.queue)

theorem checkedHear_eq (h : b.Reached) (now : Instant) (event : Event) :
    b.checkedHear now event = .ok (b.hear now event) := by
  rw [checkedHear, hear]
  split
  · exact checkedTakeIn_eq h now event
  · rfl

theorem checkedHearAll_eq (h : b.Reached) (now : Instant) (events : List Event) :
    checkedHearAll now events b = .ok (hearAll now events b) := by
  induction events generalizing b with
  | nil => rfl
  | cons event events ih =>
    have hfirst : (b.hear now event).state.Reached := h.perform (.hear now event)
    rw [checkedHearAll, checkedHear_eq h, Checked.ok_bind, hearAll]
    cases hanswer : (b.hear now event).answer with
    | error e => rfl
    | ok heard =>
      dsimp only
      rw [ih hfirst]
      rfl

/-- What is done in checked steps is done. -/
theorem checkedPerform_eq (h : b.Reached) (action : Action) :
    b.checkedPerform action = .ok (b.perform action) := by
  have hsize := h.size_lt
  cases action with
  | hear now event =>
    rw [checkedPerform, checkedHear_eq h]
    rfl
  | hearAll now events =>
    rw [checkedPerform, checkedHearAll_eq h]
    rfl
  | takeIn now event =>
    rw [checkedPerform, checkedTakeIn_eq h]
    rfl
  | load size listing =>
    have hload := checkedOnQueue_eq (Queue.loadListing b.config.paceWeight size listing)
      (Queue.checkedLoadListing_eq h.balanced.nodup size listing)
    rw [checkedPerform, hload]
    rfl
  | insert r place =>
    have hinsert := checkedOnQueue_eq (Queue.insert b.config.paceWeight r place)
      (Queue.checkedInsert_eq _ r place b.queue)
    rw [checkedPerform, hinsert]
    rfl
  | eraseRows rows =>
    rw [checkedPerform, checkedOnQueue_eq _ (Queue.checkedEraseRows_eq hsize rows)]
    rfl
  | eraseRange first count =>
    rw [checkedPerform, checkedOnQueue_eq _ (Queue.checkedEraseRange_eq hsize first count)]
    rfl
  | moveRange first count destination =>
    have hmove := Queue.checkedMoveRange_eq hsize first count destination
    rw [checkedPerform, checkedOnQueue_eq _ hmove]
    rfl
  | moveSelection rows destination =>
    have hmove := Queue.checkedMoveSelection_eq hsize rows destination
    rw [checkedPerform, checkedOnQueue_eq _ hmove]
    rfl
  | dismiss rows cancel clear =>
    rw [checkedPerform, checkedOnQueue_eq _ (Queue.checkedDismiss_eq hsize rows cancel clear)]
    rfl
  | restart tag =>
    rw [checkedPerform, checkedOnQueue_eq _ (Queue.checkedRestart_eq hsize tag)]
    rfl
  | _ => rfl

end Board

/-! ## Rows that are not there -/

namespace Action

/-- The action is about a place or rows that are not there. -/
def IsOutside (size : Nat) : Action → Prop
  | .insert _ place => size < place
  | .eraseRange first count => size < first + count
  | .moveRange first count destination => size < first + count ∨ size < destination
  | .moveSelection _ destination => size < destination
  | _ => False

/-- The action without those of its rows that are not there. -/
def within (size : Nat) : Action → Action
  | .eraseRows rows => .eraseRows (rows.filter (· < size))
  | .moveSelection rows destination => .moveSelection (rows.filter (· < size)) destination
  | .pauseSelection rows paused => .pauseSelection (rows.filter (· < size)) paused
  | .dismiss rows cancel clear => .dismiss (rows.filter (· < size)) cancel clear
  | action => action

end Action

namespace Queue

variable {q : Queue} {rows : List Nat}

theorem selection_filter : selection q.size (rows.filter (· < q.size)) = selection q.size rows :=
  selection_congr fun n hn => by rw [List.mem_filter, decide_eq_true hn, and_iff_left rfl]

theorem filterMap_getElem?_filter :
    (rows.filter (· < q.size)).filterMap (q.rows[·]?) = rows.filterMap (q.rows[·]?) := by
  rw [List.filterMap_filter]
  congr 1
  funext n
  by_cases hn : n < q.size
  · rw [if_pos (decide_eq_true hn)]
  · rw [if_neg (by simpa using hn), List.getElem?_eq_none (Nat.le_of_not_lt hn)]

theorem links_filter (base : String) :
    q.links base (rows.filter (· < q.size)) = q.links base rows := by
  rw [links, links, filterMap_getElem?_filter]

end Queue

namespace Board

variable {b : Board}

/-- An action about rows that are not there is refused. -/
theorem perform_of_isOutside {action : Action} (h : action.IsOutside b.queue.size) :
    b.perform action = ⟨b, .flag false, [], []⟩ := by
  cases action with
  | insert r place =>
    have hplace : b.queue.size < place := h
    have hadd : b.queue.add b.config.paceWeight r place = .ok none := by
      rw [Queue.add, decide_eq_true hplace, Bool.or_true, if_pos rfl]
    simp only [perform, onQueue, Queue.insert, hadd]
    rfl
  | eraseRange first count =>
    have hrange : b.queue.size < first + count := h
    simp only [perform, onQueue, Queue.eraseRange, if_pos (Or.inr hrange)]
    rfl
  | moveRange first count destination =>
    have hnone : b.queue.commandsToMove? first count destination = none :=
      if_pos (.inr (h.imp_right .inl))
    simp only [perform, onQueue, Queue.moveRange, hnone]
    rfl
  | moveSelection rows destination =>
    have hnone : ∀ n, b.queue.commandsToMove? n 1 destination = none :=
      fun _ => if_pos (.inr (.inr (.inl h)))
    simp [perform, onQueue, Queue.moveSelection, hnone, Outcome.mapState, Outcome.mapAnswer]
  | _ => exact h.elim

/-- Of a list of rows, those that are not there do not count. -/
theorem perform_within (b : Board) (action : Action) :
    b.perform (action.within b.queue.size) = b.perform action := by
  cases action with
  | eraseRows rows =>
    simp only [Action.within, perform, onQueue, Queue.eraseRows, Queue.selection_filter]
  | moveSelection rows destination =>
    simp only [Action.within, perform, onQueue, Queue.moveSelection, Queue.selection_filter]
  | pauseSelection rows paused =>
    simp only [Action.within, perform, pauseSelection, Queue.filterMap_getElem?_filter]
  | dismiss rows cancel clear =>
    simp only [Action.within, perform, onQueue, Queue.dismiss, Queue.selection_filter]
  | _ => rfl

/-- Whatever has happened to a board and whatever it is asked for, no row is sought that is not there, and
no number wraps.  An action about a place or a range that is not there is refused and changes nothing; of a
list of rows, those that are not there do not count, nor do they when links are asked for.  A place is found
for each lane and priority.  A transfer comes to its end at a moment that is not before now. -/
theorem stays_in_range (reached : b.Reached) (action : Action) :
    b.checkedPerform action = .ok (b.perform action)
      ∧ (action.IsOutside b.queue.size → b.perform action = ⟨b, .flag false, [], []⟩)
      ∧ b.perform (action.within b.queue.size) = b.perform action
      ∧ (∀ base rows, b.queue.links base (rows.filter (· < b.queue.size)) = b.queue.links base rows)
      ∧ (∀ lane priority, Queue.checkedPlaceFor lane priority b.queue.rows
          = .ok (Queue.placeFor lane priority b.queue.rows))
      ∧ ∀ (r : Report) (now : Instant), r.checkedFinishTime now = .ok (r.finishTime now)
        ∧ now ≤ r.finishTime now ∧ (now.inRange = true → (r.finishTime now).inRange = true) := by
  refine ⟨checkedPerform_eq reached action, perform_of_isOutside, b.perform_within action, ?_, ?_, ?_⟩
  · exact fun base rows => Queue.links_filter base
  · exact fun lane priority => Queue.checkedPlaceFor_eq reached.size_lt
  · exact fun r now => ⟨r.checkedFinishTime_eq now, r.le_finishTime now⟩

/-- The end of a range is no word; of a list, one number is the greatest word; a transfer has come to its
end after as long as words can tell. -/
theorem stays_in_range_fourRows :
    fourRows.checkedPerform (.eraseRange 2 18446744073709551615) = .ok ⟨fourRows, .flag false, [], []⟩
      ∧ fourRows.checkedPerform (.eraseRows [3, 18446744073709551615])
        = .ok (fourRows.perform (.eraseRows [3]))
      ∧ Instant.epoch ≤ { Report.bare 1 .download 5 9 with
          startedAt := -9223372036854775808, updatedAt := 9223372036854775807 }.finishTime .epoch := by
  have reached : fourRows.Reached := ⟨_, _, _, rfl⟩
  have hsize : fourRows.queue.size = 4 := by decide +kernel
  have houtside : (Action.eraseRange 2 18446744073709551615).IsOutside fourRows.queue.size := by
    rw [hsize]
    show 4 < 2 + 18446744073709551615
    decide
  have hwithin : (Action.eraseRows [3, 18446744073709551615]).within fourRows.queue.size
      = .eraseRows [3] := by
    rw [hsize]
    rfl
  obtain ⟨hrange, hrefused, -⟩ := stays_in_range reached (.eraseRange 2 18446744073709551615)
  obtain ⟨hrows, -, hsame, -, -, htimes⟩ :=
    stays_in_range reached (.eraseRows [3, 18446744073709551615])
  refine ⟨hrange.trans (congrArg _ (hrefused houtside)), ?_, (htimes _ .epoch).2.1⟩
  rw [hrows, ← hsame, hwithin]

end Board

end TransferQueue
