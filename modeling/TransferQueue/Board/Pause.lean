import TransferQueue.Board.Basic

/-!
# Pausing and resuming

Transfers are paused one by one, for a selection of rows, or all together.  Whether a transfer is
paused is for the engine to say: the commands change no row.

* `Board.pauseOne` and `Board.pauseSelection` ask for single transfers; resuming a selection ends
  the general pause;
* `Board.pauseAll` sets the general pause or ends it, `Board.flipPause` does what it does not do
  yet, and `Board.adoptPreference` follows the preference.
-/

namespace TransferQueue

/-- Whether a transfer in this phase can be paused, or resumed if `paused` is false. -/
def Phase.canBecome (paused : Bool) (phase : Phase) : Bool :=
  if paused then phase.canPause else phase == .paused

namespace Board

/-- The commands that pause or resume those of the rows for which that is possible. -/
def pauseCommands (paused : Bool) (rows : List Row) : List Command :=
  (rows.filter fun row => row.entry.phase.canBecome paused).map fun row => .pause row.tag paused

/-- Pause or resume one transfer, if its phase allows that. -/
def pauseOne (tag : Tag) (paused : Bool) (b : Board) : Outcome Board Bool :=
  let commands := pauseCommands paused (b.queue.find? tag).toList
  ⟨b, !commands.isEmpty, [], commands⟩

/-- Pause or resume the selected rows for which that is possible.  Resuming ends the general
pause. -/
def pauseSelection (rows : List Nat) (paused : Bool) (b : Board) : Outcome Board Unit :=
  let commands := pauseCommands paused (rows.filterMap (b.queue.rows[·]?))
  if !paused && b.allPaused then
    ⟨{ b with allPaused := false, preference := b.preference.set false }, (), [.pausing false],
      commands ++ [.pauseAll false]⟩
  else ⟨b, (), [], commands⟩

/-- Set or end the general pause.  Transfers are paused from the last row on, so that the most
urgent ones run longest, and resumed from the first row on. -/
def pauseAll (paused : Bool) (b : Board) : Outcome Board Unit :=
  ⟨{ b with allPaused := paused, preference := b.preference.set paused }, (),
    if b.allPaused = paused then [] else [.pausing paused],
    if paused then .pauseAll true :: pauseCommands true b.queue.rows.reverse
    else pauseCommands false b.queue.rows ++ [.pauseAll false]⟩

/-- Toggle the general pause, and answer whether it holds now. -/
def flipPause (b : Board) : Outcome Board Bool :=
  (b.pauseAll !b.allPaused).mapAnswer fun _ => !b.allPaused

/-- Synchronise the general pause with the preference, if the general pause differs from it. -/
def adoptPreference (b : Board) : Outcome Board Bool :=
  if b.preference.isPaused = b.allPaused then ⟨b, false, [], []⟩
  else (b.pauseAll b.preference.isPaused).mapAnswer fun _ => true

/-- Set the preference without telling the board. -/
def overwritePreference (paused : Bool) (b : Board) : Outcome Board Unit :=
  ⟨{ b with preference := b.preference.set paused }, (), [], []⟩

/-- Cancel all transfers that the engine has. -/
def cancelEverything (b : Board) : Outcome Board Unit :=
  ⟨b, (), [], Direction.all.map .cancelDirection⟩

end Board

end TransferQueue
