import TransferQueue.Entry
import TransferQueue.Wire.Names
import TransferQueue.Wire.Parts

/-!
# Entries in JSON
-/

namespace TransferQueue

open Json

namespace Entry

/-- The fields of an entry. -/
def layout : Layout :=
  ⟨["tag", "transferType", "state", "priority", "totalBytes", "transferredBytes", "speed",
    "meanSpeed", "remainingTime", "startedAt", "updatedAt", "finishedAt", "error", "fileName",
    "path", "fileCategory", "parentHandle", "nodeHandle", "publicNode"], true, false⟩

/-- An entry in JSON. -/
def toJson (e : Entry) : Value :=
  .ofMembers
    [("tag", .ofInt e.tag.toInt), ("transferType", e.lane.toJson), ("state", e.phase.toJson),
      ("priority", .ofUInt64 e.priority), ("totalBytes", .ofUInt64 e.totalBytes),
      ("transferredBytes", .ofUInt64 e.doneBytes), ("speed", .ofUInt64 e.speed),
      ("meanSpeed", .ofUInt64 e.meanSpeed), ("remainingTime", .ofOption Span.toJson e.timeLeft),
      ("startedAt", .ofInt e.startedAt.toInt), ("updatedAt", .ofInt e.updatedAt.toInt),
      ("finishedAt", .ofOption Instant.toJson e.finishedAt),
      ("error", .ofOption Fault.toJson e.fault), ("fileName", .ofString e.fileName),
      ("path", .ofString e.path), ("fileCategory", e.kind.toJson),
      ("parentHandle", .ofUInt64 e.parentHandle), ("nodeHandle", .ofUInt64 e.nodeHandle),
      ("publicNode", .ofOption SharedNode.toJson e.sharedNode)]

/-- The entry that a JSON value stands for. -/
def ofJson? : Value → Option Entry :=
  Fields.run layout do
    let tag ← Fields.required Value.int32?
    let lane ← Fields.required Lane.ofJson?
    let phase ← Fields.required Phase.ofJson?
    let priority ← Fields.required Value.uint64?
    let totalBytes ← Fields.required Value.uint64?
    let doneBytes ← Fields.required Value.uint64?
    let speed ← Fields.required Value.uint64?
    let meanSpeed ← Fields.required Value.uint64?
    let timeLeft ← Fields.optional Span.ofJson?
    let startedAt ← Fields.required Value.int64?
    let updatedAt ← Fields.required Value.int64?
    let finishedAt ← Fields.optional Instant.ofJson?
    let fault ← Fields.optional Fault.ofJson?
    let fileName ← Fields.required Value.string?
    let path ← Fields.required Value.string?
    let kind ← Fields.required FileKind.ofJson?
    let parentHandle ← Fields.required Value.uint64?
    let nodeHandle ← Fields.required Value.uint64?
    let sharedNode ← Fields.optional SharedNode.ofJson?
    return {
      tag, lane, phase, priority, totalBytes, doneBytes, speed, meanSpeed, timeLeft, startedAt,
      updatedAt, finishedAt, fault, fileName, path, kind, parentHandle, nodeHandle, sharedNode }

end Entry

end TransferQueue
