import TransferQueue.Outcome
import TransferQueue.Pace
import TransferQueue.Tally

/-!
# The queue

A queue is a list of rows, one for each transfer that it shows.  A row holds the entry of its
transfer and what is kept beside it: the report of a failure, from which the transfer can be
started again, and the pace of a transfer that is still under way.  The queue also holds the tally
of its rows and the number of the latest report that it has taken in, its *watermark*.

For each selected row the queue offers a link to its file, or, if no link is known, the handle of
the node that has to be exported first (`Queue.links`).
-/

namespace TransferQueue

/-- A row of the queue. -/
structure Row where
  /-- What is shown. -/
  entry : Entry
  /-- The report of the failure of a failed transfer. -/
  retained : Option Report
  /-- The pace of an unfinished transfer. -/
  pace : Option Pace
deriving DecidableEq, Repr

namespace Row

/-- The transfer of a row. -/
def tag (row : Row) : Tag := row.entry.tag

/-- The row of a transfer that was not shown before. -/
def ofReport (weight : Float) (r : Report) : Except Overflow Row :=
  let pace := (Pace.start r.speed weight).observe r.speed
  (pace.timeLeft r.bytesLeft).map fun timeLeft =>
    { entry := .ofReport r timeLeft
      retained := if r.phase = .failed then some r else none
      pace := if r.phase.isFinished then none else some pace }

/-- A row whose pace has taken in the speed of a report, and the time that is left then.  Finished
transfers have no time left and keep no pace. -/
def estimate (weight : Float) (r : Report) (row : Row) : Row × Except Overflow (Option Span) :=
  if row.entry.phase.isFinished then (row, .ok none)
  else
    let pace := (row.pace.getD (.start r.speed weight)).observe r.speed
    ({ row with pace := some pace }, pace.timeLeft r.bytesLeft)

end Row

/-- An ordered list of transfers with its tally. -/
structure Queue where
  /-- The rows, the first one at the head. -/
  rows : List Row
  /-- The tally of the rows. -/
  tally : Tally
  /-- The number of the latest report that was taken in. -/
  watermark : UInt64
deriving DecidableEq, Repr

namespace Queue

/-- The queue without rows that has taken in no report. -/
def empty : Queue := ⟨[], .empty, 0⟩

/-! ## Views -/

/-- The transfers in the order of their rows. -/
def tags (q : Queue) : List Tag := q.rows.map Row.tag

/-- What is shown, in the order of the rows. -/
def entries (q : Queue) : List Entry := q.rows.map Row.entry

/-- The number of rows. -/
def size (q : Queue) : Nat := q.rows.length

/-- The row number of a transfer. -/
def place? (q : Queue) (tag : Tag) : Option Nat := q.rows.findIdx? fun row => row.tag == tag

/-- The row of a transfer. -/
def find? (q : Queue) (tag : Tag) : Option Row := q.rows.find? fun row => row.tag == tag

/-- The row number of a transfer, and its row. -/
def locate? (q : Queue) (tag : Tag) : Option (Nat × Row) :=
  (q.place? tag).bind fun place => q.rows[place]?.map (place, ·)

/-- Whether a transfer has a row. -/
def contains (q : Queue) (tag : Tag) : Bool := q.rows.any fun row => row.tag == tag

/-- The report of the failure of a transfer, if it has failed. -/
def retained? (q : Queue) (tag : Tag) : Option Report := (q.find? tag).bind Row.retained

/-- Whether a report with this number is late: the queue has taken in that one or a later one. -/
def hasSeen (q : Queue) (number : UInt64) : Bool := number ≤ q.watermark

/-! ## Steps from which the operations are made -/

/-- The queue with one more row, which gets the number `place`. -/
def insertRow (q : Queue) (place : Nat) (row : Row) : Queue :=
  { q with rows := q.rows.insertIdx place row, tally := q.tally.add row.entry }

/-- The queue in which another row has taken the place of the one at `place`, whose phase was
`before`. -/
def replaceRow (q : Queue) (place : Nat) (before : Phase) (row : Row) : Queue :=
  { q with rows := q.rows.set place row, tally := q.tally.shift before row.entry }

/-- The queue without the rows from `first` to `last`. -/
def eraseRun (q : Queue) (first last : Nat) : Queue :=
  { q with
    rows := q.rows.take first ++ q.rows.drop (last + 1)
    tally := ((q.rows.drop first).take (last + 1 - first)).foldl (fun t row => t.remove row.entry)
      q.tally }

theorem tags_insertRow (q : Queue) (place : Nat) (row : Row) :
    (q.insertRow place row).tags = q.tags.insertIdx place row.tag := by
  unfold tags insertRow
  induction q.rows generalizing place with
  | nil => cases place <;> simp
  | cons first rows ih =>
    cases place with
    | zero => simp
    | succ place => simpa using ih place

theorem tags_replaceRow (q : Queue) (place : Nat) (before : Phase) (row : Row) :
    (q.replaceRow place before row).tags = q.tags.set place row.tag := by
  simp [tags, replaceRow, List.map_set]

theorem tags_eraseRun (q : Queue) (first last : Nat) :
    (q.eraseRun first last).tags = q.tags.take first ++ q.tags.drop (last + 1) := by
  simp [tags, eraseRun, List.map_take, List.map_drop]

/-- The outcome of an operation that leaves the queue as it is and says no. -/
def refuse (q : Queue) : Outcome Queue (Except Overflow Bool) := ⟨q, .ok false, [], []⟩

/-- The outcome of an operation that has failed because a time cannot be expressed. -/
def overflow {α : Type} (q : Queue) : Outcome Queue (Except Overflow α) :=
  ⟨q, .error .tooLong, [], []⟩

/-- What observers are told when the queue has lost its last row. -/
def emptied (before after : Queue) : List Change :=
  if !before.rows.isEmpty && after.rows.isEmpty then [.presence false] else []

end Queue

/-! ## Links to the shown files -/

/-- What is offered for a selection of rows. -/
structure Links where
  /-- The nodes without a link. -/
  toExport : List Handle
  /-- The links. -/
  links : List String
deriving DecidableEq, Repr

namespace Row

/-- The shared node that a row knows: that of the failure for a failed transfer, otherwise that of
its entry. -/
def sharedNode? (row : Row) : Option SharedNode :=
  if row.entry.phase = .failed then row.retained.bind Report.sharedNode else row.entry.sharedNode

/-- The link to the file of a row. -/
def link? (base : String) (row : Row) : Option String :=
  row.sharedNode?.bind fun node => node.link? base

end Row

/-- The links and the nodes to be exported of the rows with the given numbers, in the order of the
numbers and as often as they are repeated. -/
def Queue.links (base : String) (rows : List Nat) (q : Queue) : Links :=
  let selected := rows.filterMap (q.rows[·]?)
  { toExport := (selected.filter fun row => (row.link? base).isNone).map (·.entry.nodeHandle)
    links := selected.filterMap (Row.link? base) }

end TransferQueue
