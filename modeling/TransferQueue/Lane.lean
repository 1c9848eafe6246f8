/-!
# Lanes

A transfer goes one way, up or down, and is either a plain transfer or one that a folder
synchronisation started.  Direction and flag together are the *lane* of the transfer:
priorities are compared within a lane only, and a queue keeps the rows of a lane together.
-/

namespace TransferQueue

/-- The name that the engine gives to a transfer. -/
abbrev Tag := Int32

/-- An opaque handle of a remote node. -/
abbrev Handle := UInt64

/-- The way a transfer goes. -/
inductive Direction where
  | upload
  | download
deriving DecidableEq, Repr

namespace Direction

/-- Both directions, in the order in which they are counted and listed. -/
def all : List Direction := [.upload, .download]

/-- The place of a direction in `all`. -/
def index : Direction → Fin 2
  | .upload => 0
  | .download => 1

end Direction

/-- The type of a transfer: its direction together with the synchronisation flag. -/
structure Lane where
  /-- The way the transfers of this lane go. -/
  direction : Direction
  /-- Whether a folder synchronisation started them. -/
  sync : Bool
deriving DecidableEq, Repr

namespace Lane

/-- The lane of plain uploads. -/
def upload : Lane := ⟨.upload, false⟩

/-- The lane of plain downloads. -/
def download : Lane := ⟨.download, false⟩

/-- The lane of the same direction with the given synchronisation flag. -/
def setSync (lane : Lane) (sync : Bool) : Lane := { lane with sync }

/-- The place of a lane when a listing is loaded: uploads first, and within a direction the
plain transfers first. -/
def index (lane : Lane) : Nat := 2 * lane.direction.index.val + lane.sync.toNat

end Lane

end TransferQueue
