import TransferQueue.Report
import TransferQueue.Wire.Names
import TransferQueue.Wire.Parts

/-!
# Reports in JSON
-/

namespace TransferQueue

open Json

namespace Report

/-- The fields of a report. -/
def layout : Layout :=
  ⟨["tag", "direction", "isSync", "isFolder", "isStreaming", "state", "priority", "totalBytes",
    "transferredBytes", "speed", "meanSpeed", "startTime", "updateTime", "fileName", "path",
    "parentHandle", "nodeHandle", "publicNode", "lastError", "notificationNumber"], true, false⟩

/-- A report in JSON. -/
def toJson (r : Report) : Value :=
  .ofMembers
    [("tag", .ofInt r.tag.toInt), ("direction", r.direction.toJson), ("isSync", .bool r.isSync),
      ("isFolder", .bool r.isFolder), ("isStreaming", .bool r.isStreaming),
      ("state", r.phase.toJson), ("priority", .ofUInt64 r.priority),
      ("totalBytes", .ofUInt64 r.totalBytes), ("transferredBytes", .ofUInt64 r.doneBytes),
      ("speed", .ofUInt64 r.speed), ("meanSpeed", .ofUInt64 r.meanSpeed),
      ("startTime", .ofInt r.startedAt.toInt), ("updateTime", .ofInt r.updatedAt.toInt),
      ("fileName", .ofString r.fileName), ("path", .ofString r.path),
      ("parentHandle", .ofUInt64 r.parentHandle), ("nodeHandle", .ofUInt64 r.nodeHandle),
      ("publicNode", .ofOption SharedNode.toJson r.sharedNode),
      ("lastError", .ofOption Fault.toJson r.lastFault),
      ("notificationNumber", .ofUInt64 r.number)]

/-- The report that a JSON value stands for. -/
def ofJson? : Value → Option Report :=
  Fields.run layout do
    let tag ← Fields.required Value.int32?
    let direction ← Fields.required Direction.ofJson?
    let isSync ← Fields.required Value.bool?
    let isFolder ← Fields.required Value.bool?
    let isStreaming ← Fields.required Value.bool?
    let phase ← Fields.required Phase.ofJson?
    let priority ← Fields.required Value.uint64?
    let totalBytes ← Fields.required Value.uint64?
    let doneBytes ← Fields.required Value.uint64?
    let speed ← Fields.required Value.uint64?
    let meanSpeed ← Fields.required Value.uint64?
    let startedAt ← Fields.required Value.int64?
    let updatedAt ← Fields.required Value.int64?
    let fileName ← Fields.required Value.string?
    let path ← Fields.required Value.string?
    let parentHandle ← Fields.required Value.uint64?
    let nodeHandle ← Fields.required Value.uint64?
    let sharedNode ← Fields.optional SharedNode.ofJson?
    let lastFault ← Fields.optional Fault.ofJson?
    let number ← Fields.required Value.uint64?
    return {
      tag, direction, isSync, isFolder, isStreaming, phase, priority, totalBytes, doneBytes,
      speed, meanSpeed, startedAt, updatedAt, fileName, path, parentHandle, nodeHandle,
      sharedNode, lastFault, number }

end Report

end TransferQueue
