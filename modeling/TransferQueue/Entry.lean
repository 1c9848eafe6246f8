import TransferQueue.FileKind
import TransferQueue.Report
import TransferQueue.Time.Instant

/-!
# Entries of the queue

An entry is what the queue shows of one transfer: what the engine last reported, and what follows
from it, namely the time left, the kind of the file and the moment of the end.

* `Entry.ofReport` is the entry of a new transfer;
* `Entry.refresh` takes over a report that is no finish, and `Entry.finish` one that is.
-/

namespace TransferQueue

/-- The record of one transfer, which is what is shown of it. -/
structure Entry where
  /-- Which transfer. -/
  tag : Tag
  /-- Its lane. -/
  lane : Lane
  /-- Where it stands in its life. -/
  phase : Phase
  /-- Its place within its lane: the smaller number goes first. -/
  priority : UInt64
  /-- The size of the file. -/
  totalBytes : UInt64
  /-- The bytes that are across. -/
  doneBytes : UInt64
  /-- The present speed, in bytes per second. -/
  speed : UInt64
  /-- The speed since the start, in bytes per second. -/
  meanSpeed : UInt64
  /-- The estimated time to the end, if there is an estimate. -/
  timeLeft : Option Span
  /-- When it started, in tenths of a second of the engine's clock. -/
  startedAt : Int64
  /-- When it last changed, in tenths of a second of the engine's clock. -/
  updatedAt : Int64
  /-- When it came to its end. -/
  finishedAt : Option Instant
  /-- What last went wrong. -/
  fault : Option Fault
  /-- The name of the file. -/
  fileName : String
  /-- Where the file is on this machine. -/
  path : String
  /-- What the file holds. -/
  kind : FileKind
  /-- The remote folder. -/
  parentHandle : Handle
  /-- The remote file. -/
  nodeHandle : Handle
  /-- The remote file as it is shared, if it is. -/
  sharedNode : Option SharedNode
deriving DecidableEq, Repr

namespace Entry

/-- The entry of a transfer that was not shown before. -/
def ofReport (r : Report) (timeLeft : Option Span) : Entry where
  tag := r.tag
  lane := r.lane
  phase := r.phase
  priority := r.priority
  totalBytes := r.totalBytes
  doneBytes := r.doneBytes
  speed := r.speed
  meanSpeed := r.meanSpeed
  timeLeft
  startedAt := r.startedAt
  updatedAt := r.updatedAt
  finishedAt := none
  fault := r.lastFault
  fileName := r.fileName
  path := r.path
  kind := FileKind.ofName r.fileName
  parentHandle := r.parentHandle
  nodeHandle := r.nodeHandle
  sharedNode := r.sharedNode

/-- The bytes that are still to be moved. -/
def bytesLeft (e : Entry) : UInt64 :=
  if e.doneBytes ≤ e.totalBytes then e.totalBytes - e.doneBytes else 0

/-- The share of the file that is across, between zero and one.  An empty file is across once it
is completed. -/
def fractionDone (e : Entry) : Float :=
  if e.totalBytes = 0 then if e.phase = .completed then 1.0 else 0.0
  else
    let share := e.doneBytes.toFloat / e.totalBytes.toFloat
    if share < 0.0 then 0.0 else if 1.0 < share then 1.0 else share

/-- The entry after a report that is no finish.  The phase changes only as `Phase.mayBecome` allows.
The priority does not change here, because the row may have to move with it. -/
def refresh (e : Entry) (r : Report) (timeLeft : Option Span) (fault : Option Fault) : Entry :=
  { e with
    phase := e.phase.advance r.phase
    totalBytes := r.totalBytes
    doneBytes := r.doneBytes
    speed := r.speed
    meanSpeed := r.meanSpeed
    timeLeft
    updatedAt := r.updatedAt
    fault
    sharedNode := r.sharedNode.or e.sharedNode }

/-- The entry after the report of the end.  Without a mean speed the bytes that are across stand
for it. -/
def finish (e : Entry) (r : Report) (finishedAt : Instant) (fault : Option Fault) : Entry :=
  { e with
    phase := r.phase
    doneBytes := r.doneBytes
    meanSpeed := if r.meanSpeed = 0 then r.doneBytes else r.meanSpeed
    speed := 0
    timeLeft := none
    updatedAt := r.updatedAt
    finishedAt := some finishedAt
    fault
    parentHandle := r.parentHandle
    nodeHandle := r.nodeHandle
    sharedNode := r.sharedNode.or e.sharedNode }

end Entry

end TransferQueue
