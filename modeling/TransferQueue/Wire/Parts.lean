import TransferQueue.Json.Fields
import TransferQueue.Report
import TransferQueue.Time.Timestamp

/-!
# Faults, shared nodes and times in JSON

The parts of reports and entries.  A span is written as its seconds and nanoseconds and takes no
other members; when it is read, full seconds among the nanoseconds carry over.  An instant is
written as its timestamp.
-/

namespace TransferQueue

open Json

namespace Fault

/-- The fields of a fault. -/
def layout : Layout := ⟨["code", "value"], true, false⟩

/-- A fault in JSON. -/
def toJson (f : Fault) : Value :=
  .ofMembers [("code", .ofInt f.code.toInt), ("value", .ofInt f.value.toInt)]

/-- The fault that a JSON value stands for. -/
def ofJson? : Value → Option Fault :=
  Fields.run layout do
    let code ← Fields.required Value.int32?
    let value ← Fields.required Value.int64?
    return { code, value }

end Fault

namespace SharedNode

/-- The fields of a shared node. -/
def layout : Layout := ⟨["handle", "base64Handle", "base64Key"], true, false⟩

/-- A shared node in JSON. -/
def toJson (node : SharedNode) : Value :=
  .ofMembers
    [("handle", .ofUInt64 node.handle), ("base64Handle", .ofString node.linkHandle),
      ("base64Key", .ofOption .ofString node.linkKey)]

/-- The shared node that a JSON value stands for. -/
def ofJson? : Value → Option SharedNode :=
  Fields.run layout do
    let handle ← Fields.required Value.uint64?
    let linkHandle ← Fields.required Value.string?
    let linkKey ← Fields.optional Value.string?
    return { handle, linkHandle, linkKey }

end SharedNode

namespace Span

/-- The fields of a span. -/
def layout : Layout := ⟨["secs", "nanos"], false, false⟩

/-- A span in JSON. -/
def toJson (s : Span) : Value :=
  .ofMembers [("secs", .ofUInt64 s.seconds), ("nanos", .ofNat s.nanos)]

/-- The span that a JSON value stands for. -/
def ofJson? : Value → Option Span :=
  Fields.run layout do
    let seconds ← Fields.required Value.uint64?
    let nanos ← Fields.required Value.uint32?
    Span.ofParts? seconds.toNat nanos

end Span

namespace Instant

/-- An instant in JSON. -/
def toJson (t : Instant) : Value := .ofString t.text

/-- The instant that a JSON value stands for. -/
def ofJson? (v : Value) : Option Instant := v.string?.bind ofText?

end Instant

end TransferQueue
