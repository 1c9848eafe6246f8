import TransferQueue.Json.Printer
import TransferQueue.Pace
import TransferQueue.Wire.Parts

/-!
# The configuration

What the user can set, and how it is written.  When a configuration is read, whatever is missing
has its default.
-/

namespace TransferQueue

open Json

/-- The settings: what the user can set. -/
structure Config where
  /-- Whether all transfers are to be paused. -/
  paused : Bool := false
  /-- How many rows of a listing are loaded at a time. -/
  rowsPerChunk : UInt64 := 2000
  /-- The weight of a new speed in the pace of a transfer. -/
  paceWeight : Float := Pace.defaultWeight
  /-- The address below which links are made. -/
  linkBase : String := "https://mega.nz"
deriving DecidableEq, Repr

namespace Config

/-- The fields of a configuration. -/
def layout : Layout := ⟨["globalPaused", "rowsPerChunk", "etaSmoothing", "linkBaseUrl"], true, true⟩

/-- A configuration in JSON. -/
def toJson (c : Config) : Value :=
  .ofMembers
    [("globalPaused", .bool c.paused), ("rowsPerChunk", .ofUInt64 c.rowsPerChunk),
      ("etaSmoothing", .ofFloat c.paceWeight), ("linkBaseUrl", .ofString c.linkBase)]

/-- The configuration that a JSON value stands for. -/
def ofJson? : Value → Option Config :=
  Fields.run layout do
    let default : Config := {}
    let paused ← Fields.withDefault default.paused Value.bool?
    let rowsPerChunk ← Fields.withDefault default.rowsPerChunk Value.uint64?
    let paceWeight ← Fields.withDefault default.paceWeight Value.float?
    let linkBase ← Fields.withDefault default.linkBase Value.string?
    return { paused, rowsPerChunk, paceWeight, linkBase }

/-- The text of a configuration file. -/
def text (c : Config) : String := c.toJson.pretty

/-- The configuration that the text of a file writes; a text that writes none stands for the
defaults. -/
def ofText (text : String) : Config := ((Value.parse? text).bind ofJson?).getD {}

end Config

end TransferQueue
