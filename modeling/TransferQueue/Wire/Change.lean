import TransferQueue.Json.Printer
import TransferQueue.Outcome
import TransferQueue.Tally

/-!
# Changes and tallies in JSON

These are only written.
-/

namespace TransferQueue

open Json

namespace Change

/-- The name of what has changed. -/
def name : Change → String
  | .inserted _ _ => "rowsInserted"
  | .removed _ _ => "rowsRemoved"
  | .moved _ _ _ => "rowsMoved"
  | .updated _ => "rowUpdated"
  | .presence _ => "transfersPresent"
  | .pausing _ => "pauseStateChanged"

/-- What is to be said about a change beyond its name. -/
def detail : Change → Value
  | .inserted first last | .removed first last =>
    .ofMembers [("first", .ofNat first), ("last", .ofNat last)]
  | .moved first last destination =>
    .ofMembers
      [("first", .ofNat first), ("last", .ofNat last), ("destination", .ofNat destination)]
  | .updated row => .ofMembers [("row", .ofNat row)]
  | .presence present => .bool present
  | .pausing paused => .bool paused

/-- A change in JSON. -/
def toJson (c : Change) : Value := .ofMembers [("type", .ofString c.name), ("data", c.detail)]

end Change

namespace Tally

/-- Counters in JSON. -/
def countersToJson {n : Nat} (counters : Counters n) : Value :=
  .array (counters.counts.toList.map .ofNat)

/-- A tally in JSON. -/
def toJson (t : Tally) : Value :=
  .ofMembers
    [("byState", countersToJson t.phases), ("activeByDirection", countersToJson t.unfinished),
      ("byFileCategory", countersToJson t.kinds),
      ("finishedByFileCategory", countersToJson t.finishedKinds)]

end Tally

end TransferQueue
