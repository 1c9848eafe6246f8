import TransferQueue.Entry

/-!
# The tally of a queue

How many rows are in each phase, how many unfinished ones go each way, and how many rows, and how
many finished rows, hold files of each kind.  The tally is not counted anew: a row that comes, goes
or changes its phase raises and lowers the counters that it bears on.  A counter that is zero is
not lowered further; `Counters.underflow` remembers that this was tried.
-/

namespace TransferQueue

/-- Counters for `n` things. -/
structure Counters (n : Nat) where
  /-- What has been counted. -/
  counts : Vector Nat n
  /-- Whether a counter that was zero has been lowered. -/
  underflow : Bool
deriving DecidableEq, Repr

namespace Counters

variable {n : Nat}

/-- Nothing has been counted. -/
def zero (n : Nat) : Counters n := ⟨Vector.replicate n 0, false⟩

/-- The value of a counter. -/
def get (c : Counters n) (i : Fin n) : Nat := c.counts[i]

/-- Count one more. -/
def raise (c : Counters n) (i : Fin n) : Counters n :=
  { c with counts := c.counts.set i (c.get i + 1) }

/-- Count one less. -/
def lower (c : Counters n) (i : Fin n) : Counters n :=
  ⟨c.counts.set i (c.get i - 1), c.underflow || c.get i == 0⟩

@[simp] theorem get_zero (i : Fin n) : (zero n).get i = 0 := by
  simp [zero, get]

theorem get_raise (c : Counters n) (i j : Fin n) :
    (c.raise i).get j = c.get j + if i = j then 1 else 0 := by
  simp only [raise, get, Fin.getElem_fin, Vector.getElem_set, Fin.val_inj]
  split <;> simp_all

theorem get_lower (c : Counters n) (i j : Fin n) :
    (c.lower i).get j = c.get j - if i = j then 1 else 0 := by
  simp only [lower, get, Fin.getElem_fin, Vector.getElem_set, Fin.val_inj]
  split <;> simp_all

@[simp] theorem underflow_raise (c : Counters n) (i : Fin n) :
    (c.raise i).underflow = c.underflow := rfl

theorem underflow_lower (c : Counters n) (i : Fin n) :
    (c.lower i).underflow = (c.underflow || c.get i == 0) := rfl

end Counters

/-- The statistics of a queue. -/
structure Tally where
  /-- The rows in each phase. -/
  phases : Counters 8
  /-- The unfinished rows of each direction. -/
  unfinished : Counters 2
  /-- The rows of each kind of file. -/
  kinds : Counters 7
  /-- The finished rows of each kind of file. -/
  finishedKinds : Counters 7
deriving DecidableEq, Repr

namespace Tally

/-- The tally of no rows. -/
def empty : Tally := ⟨.zero 8, .zero 2, .zero 7, .zero 7⟩

/-- The rows in a phase. -/
def inPhase (t : Tally) (phase : Phase) : Nat := t.phases.get phase.index

/-- The unfinished rows of a direction. -/
def unfinishedGoing (t : Tally) (direction : Direction) : Nat := t.unfinished.get direction.index

/-- The rows of a kind of file. -/
def ofKind (t : Tally) (kind : FileKind) : Nat := t.kinds.get kind.index

/-- The finished rows of a kind of file. -/
def finishedOfKind (t : Tally) (kind : FileKind) : Nat := t.finishedKinds.get kind.index

/-- Whether a counter that was zero has been lowered. -/
def underflow (t : Tally) : Bool :=
  t.phases.underflow || t.unfinished.underflow || t.kinds.underflow || t.finishedKinds.underflow

/-- All rows. -/
def size (t : Tally) : Nat := Phase.all.foldr (fun phase n => t.inPhase phase + n) 0

/-- The tally after a row has come. -/
def add (t : Tally) (e : Entry) : Tally where
  phases := t.phases.raise e.phase.index
  unfinished :=
    if e.phase.isFinished then t.unfinished else t.unfinished.raise e.lane.direction.index
  kinds := t.kinds.raise e.kind.index
  finishedKinds :=
    if e.phase.isFinished then t.finishedKinds.raise e.kind.index else t.finishedKinds

/-- The tally after a row has gone. -/
def remove (t : Tally) (e : Entry) : Tally where
  phases := t.phases.lower e.phase.index
  unfinished :=
    if e.phase.isFinished then t.unfinished else t.unfinished.lower e.lane.direction.index
  kinds := t.kinds.lower e.kind.index
  finishedKinds :=
    if e.phase.isFinished then t.finishedKinds.lower e.kind.index else t.finishedKinds

/-- The tally after a row has come from the phase `before` to the one that its entry now has. -/
def shift (t : Tally) (before : Phase) (e : Entry) : Tally :=
  if before = e.phase then t
  else
    { t with
      phases := (t.phases.lower before.index).raise e.phase.index
      unfinished :=
        match before.isFinished, e.phase.isFinished with
        | false, true => t.unfinished.lower e.lane.direction.index
        | true, false => t.unfinished.raise e.lane.direction.index
        | _, _ => t.unfinished
      finishedKinds :=
        match before.isFinished, e.phase.isFinished with
        | false, true => t.finishedKinds.raise e.kind.index
        | true, false => t.finishedKinds.lower e.kind.index
        | _, _ => t.finishedKinds }

end Tally

end TransferQueue
