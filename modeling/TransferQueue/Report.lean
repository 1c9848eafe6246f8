import TransferQueue.Lane
import TransferQueue.Phase

/-!
# Reports of the engine

The engine moves the bytes; the queue only hears about it.  What it hears are *reports*, each the
full account of one transfer at one moment, wrapped in an *event* that says what the occasion is.
Reports carry ascending numbers, by which late and repeated ones are recognised.  A *listing* is
the account of all transfers at one moment.

A report may tell of a *fault*, which is what the engine says went wrong, and of a *shared node*: a
remote node that its owner made public has an address made of its encoded handle and a key.  A link
is complete only when both are there and neither is empty.
-/

namespace TransferQueue

/-! ## Faults and shared nodes -/

/-- An error that the engine reports for a transfer: a code and a value that goes with it. -/
structure Fault where
  /-- Which error. -/
  code : Int32
  /-- What the code needs besides. -/
  value : Int64
deriving DecidableEq, Repr

/-- A remote node as it is shared. -/
structure SharedNode where
  /-- The node itself. -/
  handle : Handle
  /-- The handle as it is written in links. -/
  linkHandle : String
  /-- The key as it is written in links; a node that is not exported has none. -/
  linkKey : Option String
deriving DecidableEq, Repr

namespace SharedNode

/-- A node is public when it has a key, even an empty one. -/
def hasKey (node : SharedNode) : Bool := node.linkKey.isSome

/-- An address without the slashes at its end. -/
def trimSlashes (address : String) : String :=
  String.ofList (address.toList.reverse.dropWhile (· = '/')).reverse

/-- The link to a node below the address `base`. -/
def link? (node : SharedNode) (base : String) : Option String :=
  match node.linkKey with
  | none => none
  | some key =>
    if node.linkHandle.isEmpty || key.isEmpty then none
    else some (trimSlashes base ++ "/#!" ++ node.linkHandle ++ "!" ++ key)

end SharedNode

/-! ## Reports -/

/-- A transfer as the engine describes it at one moment. -/
structure Report where
  /-- Which transfer. -/
  tag : Tag
  /-- The way it goes. -/
  direction : Direction
  /-- Whether a folder synchronisation started it. -/
  isSync : Bool
  /-- Whether it stands for a whole folder. -/
  isFolder : Bool
  /-- Whether it feeds a player and not a file. -/
  isStreaming : Bool
  /-- Where it stands in its life. -/
  phase : Phase
  /-- Its place among the transfers of its lane: the smaller number goes first. -/
  priority : UInt64
  /-- The size of the file. -/
  totalBytes : UInt64
  /-- The bytes that are across. -/
  doneBytes : UInt64
  /-- The present speed, in bytes per second. -/
  speed : UInt64
  /-- The speed since the start, in bytes per second. -/
  meanSpeed : UInt64
  /-- When it started, in tenths of a second of the engine's clock. -/
  startedAt : Int64
  /-- When it last changed, in tenths of a second of the engine's clock. -/
  updatedAt : Int64
  /-- The name of the file. -/
  fileName : String
  /-- Where the file is on this machine. -/
  path : String
  /-- The remote folder. -/
  parentHandle : Handle
  /-- The remote file. -/
  nodeHandle : Handle
  /-- The remote file as it is shared, if it is. -/
  sharedNode : Option SharedNode
  /-- What last went wrong. -/
  lastFault : Option Fault
  /-- The number of the report. -/
  number : UInt64
deriving DecidableEq, Repr

namespace Report

/-- The lane of the transfer. -/
def lane (r : Report) : Lane := ⟨r.direction, r.isSync⟩

/-- Whether the queue shows transfers of this kind: folders and streams are not shown. -/
def isShown (r : Report) : Bool := !r.isFolder && !r.isStreaming

/-- The bytes that are still to be moved. -/
def bytesLeft (r : Report) : UInt64 :=
  if r.doneBytes ≤ r.totalBytes then r.totalBytes - r.doneBytes else 0

end Report

/-- An occasion on which the engine reports. -/
inductive Event where
  /-- The transfer is new. -/
  | started (report : Report)
  /-- The transfer has moved on. -/
  | updated (report : Report)
  /-- There was a temporary error: something went wrong for the moment. -/
  | hindered (report : Report) (fault : Option Fault)
  /-- The transfer has come to an end. -/
  | finished (report : Report) (fault : Option Fault)
deriving DecidableEq, Repr

/-- The report of an event. -/
def Event.report : Event → Report
  | .started report | .updated report => report
  | .hindered report _ | .finished report _ => report

/-- A snapshot of the engine: all its transfers at one moment. -/
structure Listing where
  /-- The reports, in any order. -/
  reports : List Report
  /-- The number of the last report at that moment. -/
  number : UInt64
deriving DecidableEq, Repr

end TransferQueue
