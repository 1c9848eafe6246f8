import TransferQueue.Queue.Placement

/-!
# Reports on shown transfers

A report on progress refreshes the entry of its transfer; if it brings another priority, the row
moves to the place where it then belongs.  A passing fault refreshes the entry and never moves the
row.  The report of the end is the only one that takes a transfer into or out of a finished phase;
the row stays until it is erased.

Late reports have no effect.  A report that is not late raises the watermark even when its
transfer has no row.

* `Queue.takeIn` is what these reports have in common;
* `Queue.update`, `Queue.hinder` and `Queue.finish` are the three kinds.
-/

namespace TransferQueue

/-- Whether a report shows fewer bytes than an entry and nothing else that is new.  Such a report
was overtaken by a later one. -/
def Entry.isAheadOf (e : Entry) (r : Report) : Bool :=
  e.phase == r.phase && e.priority == r.priority && r.doneBytes < e.doneBytes

namespace Row

/-- The row after a report that is no finish.  When the time left cannot be expressed, all that
changes is the pace, and the row with the new pace is the error. -/
def refresh (weight : Float) (r : Report) (fault : Option Fault) (row : Row) : Except Row Row :=
  match row.estimate weight r with
  | (row', .error _) => .error row'
  | (row', .ok timeLeft) => .ok { row' with entry := row.entry.refresh r timeLeft fault }

/-- The row with another priority. -/
def withPriority (priority : UInt64) (row : Row) : Row :=
  { row with entry := { row.entry with priority } }

/-- The row after the report of the end.  The report of a failure is kept for another try. -/
def finish (finishedAt : Instant) (r : Report) (fault : Option Fault) (row : Row) : Row where
  entry := row.entry.finish r finishedAt fault
  retained :=
    if r.phase = .failed then some { r with lastFault := fault.or r.lastFault } else none
  pace := none

end Row

namespace Report

/-- The number of sixty-four bits with a sign that is nearest to an integer. -/
def clampInt64 (n : Int) : Int := max Int64.minValue.toInt (min n Int64.maxValue.toInt)

/-- The milliseconds from the start to the last change that a report tells, none if the change
precedes the start. -/
def elapsedMillis (r : Report) : Nat :=
  (clampInt64 (100 * max 0 (clampInt64 (r.updatedAt.toInt - r.startedAt.toInt)))).toNat

/-- The moment at which a transfer has come to its end: as long after `now` as it took, or `now`
if the timeline does not reach that far. -/
def finishTime (r : Report) (now : Instant) : Instant := (now.later? r.elapsedMillis).getD now

end Report

namespace Queue

/-- Take in a report on a shown transfer.  A late report has no effect; any other raises the
watermark, and `act` is what it does to the queue when its transfer has a row. -/
def takeIn (r : Report) (act : Queue → Nat → Row → Outcome Queue (Except Overflow Bool))
    (q : Queue) : Outcome Queue (Except Overflow Bool) :=
  if q.hasSeen r.number then q.refuse
  else
    let q := { q with watermark := r.number }
    match q.locate? r.tag with
    | none => q.refuse
    | some (place, row) => act q place row

/-- Whether the row at `place` has moved, and where to, as observers are told. -/
def movedOrUpdated (place target : Nat) : Change :=
  if target = place then .updated place
  else .moved place place (if place < target then target + 1 else target)

/-- Put the row at `place`, which had the priority `before`, where it now belongs. -/
def settle (place : Nat) (before : UInt64) (row : Row) (q : Queue) :
    Outcome Queue (Except Overflow Bool) :=
  let priority := row.entry.priority
  if priority = before then ⟨q, .ok true, [.updated place], []⟩
  else
    let rest := q.rows.eraseIdx place
    let target :=
      if priority < before then placeRaised row.entry.lane priority rest
      else placeFor row.entry.lane priority rest
    ⟨{ q with rows := rest.insertIdx target row }, .ok true, [movedOrUpdated place target], []⟩

/-- Take in a report on progress. -/
def update (weight : Float) (r : Report) : Queue → Outcome Queue (Except Overflow Bool) :=
  takeIn r fun q place row =>
    if row.entry.isAheadOf r then q.refuse
    else
      match row.refresh weight r r.lastFault with
      | .error row' => (q.replaceRow place row.entry.phase row').overflow
      | .ok row' =>
        let row' := row'.withPriority r.priority
        (q.replaceRow place row.entry.phase row').settle place row.entry.priority row'

/-- Take in the report of a temporary error: a fault that passes. -/
def hinder (weight : Float) (r : Report) (fault : Option Fault) :
    Queue → Outcome Queue (Except Overflow Bool) :=
  takeIn r fun q place row =>
    match row.refresh weight r fault with
    | .error row' => (q.replaceRow place row.entry.phase row').overflow
    | .ok row' => ⟨q.replaceRow place row.entry.phase row', .ok true, [.updated place], []⟩

/-- Take in the report of the end, which makes the entry final. -/
def finish (now : Instant) (r : Report) (fault : Option Fault) :
    Queue → Outcome Queue (Except Overflow Bool) :=
  takeIn r fun q place row =>
    ⟨q.replaceRow place row.entry.phase (row.finish (r.finishTime now) r fault), .ok true,
      [.updated place], []⟩

end Queue

end TransferQueue
