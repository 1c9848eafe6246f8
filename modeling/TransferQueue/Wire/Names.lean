import TransferQueue.FileKind
import TransferQueue.Json.Fields
import TransferQueue.Lane
import TransferQueue.Phase

/-!
# Directions, phases, kinds and lanes in JSON

A choice is written as its name.
-/

namespace TransferQueue

open Json

namespace Direction

/-- The name of a direction. -/
def name : Direction → String
  | .upload => "upload"
  | .download => "download"

/-- A direction in JSON. -/
def toJson (d : Direction) : Value := .ofString d.name

/-- The direction that a JSON value stands for. -/
def ofJson? (v : Value) : Option Direction := v.choice? all name

end Direction

namespace Phase

/-- The name of a phase. -/
def name : Phase → String
  | .queued => "queued"
  | .active => "active"
  | .paused => "paused"
  | .retrying => "retrying"
  | .completing => "completing"
  | .completed => "completed"
  | .cancelled => "cancelled"
  | .failed => "failed"

/-- A phase in JSON. -/
def toJson (p : Phase) : Value := .ofString p.name

/-- The phase that a JSON value stands for. -/
def ofJson? (v : Value) : Option Phase := v.choice? all name

end Phase

namespace FileKind

/-- The name of a kind. -/
def name : FileKind → String
  | .text => "text"
  | .audio => "audio"
  | .video => "video"
  | .archive => "archive"
  | .document => "document"
  | .image => "image"
  | .other => "other"

/-- A kind in JSON. -/
def toJson (k : FileKind) : Value := .ofString k.name

/-- The kind that a JSON value stands for. -/
def ofJson? (v : Value) : Option FileKind := v.choice? all name

end FileKind

namespace Lane

/-- The fields of a lane. -/
def layout : Layout := ⟨["direction", "sync"], true, false⟩

/-- A lane in JSON. -/
def toJson (lane : Lane) : Value :=
  .ofMembers [("direction", lane.direction.toJson), ("sync", .bool lane.sync)]

/-- The lane that a JSON value stands for. -/
def ofJson? : Value → Option Lane :=
  Fields.run layout do
    let direction ← Fields.required Direction.ofJson?
    let sync ← Fields.required Value.bool?
    return { direction, sync }

end Lane

end TransferQueue
