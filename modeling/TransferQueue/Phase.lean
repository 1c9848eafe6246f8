/-!
# Phases of a transfer

The eight phases that the engine distinguishes, the three groups that the queue acts on, and
the rule which changes a report may bring that is no finish.
-/

namespace TransferQueue

/-- The state of a transfer: where it stands in its life. -/
inductive Phase where
  | queued
  | active
  | paused
  | retrying
  | completing
  | completed
  | cancelled
  | failed
deriving DecidableEq, Repr

namespace Phase

/-- All phases, in the order in which they are counted and listed. -/
def all : List Phase :=
  [.queued, .active, .paused, .retrying, .completing, .completed, .cancelled, .failed]

/-- The place of a phase in `all`. -/
def index : Phase → Fin 8
  | .queued => 0
  | .active => 1
  | .paused => 2
  | .retrying => 3
  | .completing => 4
  | .completed => 5
  | .cancelled => 6
  | .failed => 7

/-- A transfer that waits or runs can be paused. -/
def canPause : Phase → Bool
  | .queued | .active | .retrying => true
  | _ => false

/-- A transfer that waits, runs or is paused can be cancelled. -/
def canCancel : Phase → Bool
  | .queued | .active | .paused | .retrying => true
  | _ => false

/-- A transfer that was completed, cancelled or failed has finished. -/
def isFinished : Phase → Bool
  | .completed | .cancelled | .failed => true
  | _ => false

/-- Whether a report that is no finish may take a transfer from `phase` to `next`: the
finished phases are entered by a finish only, and no such report leaves them. -/
def mayBecome (phase next : Phase) : Bool := !phase.isFinished && !next.isFinished

/-- The phase after a report that is no finish and asks for `next`. -/
def advance (phase next : Phase) : Phase := if phase.mayBecome next then next else phase

@[simp] theorem isFinished_advance (phase next : Phase) :
    (phase.advance next).isFinished = phase.isFinished := by
  unfold advance mayBecome
  cases h : phase.isFinished <;> cases h' : next.isFinished <;> simp [h, h']

theorem advance_of_isFinished {phase : Phase} (h : phase.isFinished = true) (next : Phase) :
    phase.advance next = phase := by
  simp [advance, mayBecome, h]

end Phase

end TransferQueue
