import TransferQueue.Report

/-!
# What an operation does

An operation on a queue leaves a new state and answers its caller.  Besides, it may tell the
observers what changed and ask the engine for something.  An outcome holds all four.

An operation that reaches outside the queue, to a file or to the engine, can fail instead; what it
then answers is a *failure*.
-/

namespace TransferQueue

/-- What observers of a queue are notified of.  The rows of removals and moves are those just
before the change, the rows of insertions and updates those just after it. -/
inductive Change where
  /-- The rows from `first` to `last` are new. -/
  | inserted (first last : Nat)
  /-- The rows from `first` to `last` are gone. -/
  | removed (first last : Nat)
  /-- The rows from `first` to `last` now stand before the row that was at `destination`. -/
  | moved (first last destination : Nat)
  /-- The entry of a row has changed. -/
  | updated (row : Nat)
  /-- The queue has got its first row, or has lost its last. -/
  | presence (present : Bool)
  /-- All transfers have been paused, or the general pause is over. -/
  | pausing (paused : Bool)
deriving DecidableEq, Repr

/-- What the engine is asked for.  It does not answer: what comes of a command shows in later
events. -/
inductive Command where
  /-- Pause or resume a transfer. -/
  | pause (tag : Tag) (paused : Bool)
  /-- Pause or resume all transfers. -/
  | pauseAll (paused : Bool)
  /-- Cancel a transfer. -/
  | cancel (tag : Tag)
  /-- Cancel all transfers of a direction. -/
  | cancelDirection (direction : Direction)
  /-- Give a transfer the first place. -/
  | putFirst (tag : Tag)
  /-- Give a transfer the last place. -/
  | putLast (tag : Tag)
  /-- Give a transfer the place before another one. -/
  | putBefore (tag target : Tag)
  /-- Start a failed transfer again. -/
  | restart (report : Report)
deriving DecidableEq, Repr

/-- What an operation does. -/
structure Outcome (σ α : Type) where
  /-- The state that it leaves. -/
  state : σ
  /-- What it answers. -/
  answer : α
  /-- What observers are told, in order. -/
  changes : List Change := []
  /-- What the engine is asked for, in order. -/
  commands : List Command := []

namespace Outcome

variable {σ τ α β : Type}

/-- The same outcome, with the state seen in another way. -/
def mapState (f : σ → τ) (o : Outcome σ α) : Outcome τ α :=
  ⟨f o.state, o.answer, o.changes, o.commands⟩

/-- The same outcome with another answer. -/
def mapAnswer (f : α → β) (o : Outcome σ α) : Outcome σ β :=
  ⟨o.state, f o.answer, o.changes, o.commands⟩

/-- The outcome of two operations, one after the other, when `o` is that of the second. -/
def after (o : Outcome σ α) (first : Outcome τ β) : Outcome σ α :=
  ⟨o.state, o.answer, first.changes ++ o.changes, first.commands ++ o.commands⟩

end Outcome

/-- Why an operation that reaches outside the queue did not succeed. -/
inductive Failure where
  /-- A file or folder could not be read or written. -/
  | fileAccess (detail : String)
  /-- A value could not be written as text. -/
  | encoding (detail : String)
  /-- Nobody receives the commands for the engine any more. -/
  | engineClosed
deriving DecidableEq, Repr

/-- The text that is shown for a failure. -/
def Failure.message : Failure → String
  | .fileAccess detail => "File I/O error: " ++ detail
  | .encoding detail => "Serialization error: " ++ detail
  | .engineClosed => "Engine channel closed"

end TransferQueue
