import TransferQueue.Board.Pause

/-!
# Actions on a board

Whatever can happen to a board is an action: the engine reports, the user asks for something, or
the preference changes elsewhere.  A run is a list of actions.

## Words

This library has short words for what transfer queues mostly know by longer ones:

* data: a *report* is a transfer as the engine describes it, a *listing* a snapshot of the engine,
  an *entry* a transfer record, a *lane* a transfer type, a *phase* a transfer state, a *pace* a
  remaining-time estimator, a *tally* the statistics, a *retained* report the snapshot of a failed
  transfer, the *watermark* the notification number, a *preference* the pause preference;
* events: *started*, *updated*, *hindered* (temporary error), *finished*, which `Queue.start`,
  `Queue.update`, `Queue.hinder` and `Queue.finish` take in as an update on start, an update on
  progress, an update on a temporary error and a finalisation;
* requests: to *erase* is to remove rows, to *dismiss* to cancel and clear, to *restart* to retry;
  `moveRange` moves rows and `moveSelection` drops rows; `load` populates the queue;
* pausing: `pauseOne`, `pauseSelection` and `pauseAll` pause or resume by tag, by rows and all,
  `flipPause` toggles and `adoptPreference` synchronises with the preference.
-/

namespace TransferQueue

/-- Something that happens to a board. -/
inductive Action where
  /-- An event arrives at the moment `now`. -/
  | hear (now : Instant) (event : Event)
  /-- Events arrive one after the other. -/
  | hearAll (now : Instant) (events : List Event)
  /-- An event arrives that is taken in whatever its transfer is. -/
  | takeIn (now : Instant) (event : Event)
  /-- A listing is loaded in chunks. -/
  | load (size : Nat) (listing : Listing)
  /-- A transfer is shown at a given place. -/
  | insert (report : Report) (place : Nat)
  /-- Rows are erased. -/
  | eraseRows (rows : List Nat)
  /-- A range of rows is erased. -/
  | eraseRange (first count : Nat)
  /-- A block of rows is to move. -/
  | moveRange (first count destination : Nat)
  /-- Scattered rows are to move. -/
  | moveSelection (rows : List Nat) (destination : Nat)
  /-- A transfer is to be paused or resumed. -/
  | pauseOne (tag : Tag) (paused : Bool)
  /-- Rows are to be paused or resumed. -/
  | pauseSelection (rows : List Nat) (paused : Bool)
  /-- The general pause is set or ended. -/
  | pauseAll (paused : Bool)
  /-- The general pause is set if it does not hold, and ended if it does. -/
  | flipPause
  /-- The general pause follows the preference. -/
  | adoptPreference
  /-- The preference is set behind the board's back. -/
  | overwritePreference (paused : Bool)
  /-- Transfers of rows are to be cancelled, finished rows are erased. -/
  | dismiss (rows : List Nat) (cancel clear : Bool)
  /-- All transfers are to be cancelled. -/
  | cancelEverything
  /-- A failed transfer is to start again. -/
  | restart (tag : Tag)

/-- What an action answers. -/
inductive Answer where
  /-- There is nothing to say. -/
  | done
  /-- Yes or no. -/
  | flag (b : Bool)
  /-- A number of rows. -/
  | count (n : Nat)
  /-- A time could not be expressed. -/
  | overflow
deriving DecidableEq, Repr

/-- The answer of an operation that has something to say unless a time cannot be expressed. -/
def Answer.ofExcept {α : Type} (f : α → Answer) : Except Overflow α → Answer
  | .error _ => .overflow
  | .ok a => f a

namespace Board

/-- What an action does. -/
def perform (b : Board) : Action → Outcome Board Answer
  | .hear now event => (b.hear now event).mapAnswer (.ofExcept .flag)
  | .hearAll now events => (b.hearAll now events).mapAnswer (.ofExcept fun _ => .done)
  | .takeIn now event => (b.takeIn now event).mapAnswer (.ofExcept .flag)
  | .load size listing => (b.load size listing).mapAnswer (.ofExcept .count)
  | .insert report place =>
    (b.onQueue (Queue.insert b.config.paceWeight report place)).mapAnswer (.ofExcept .flag)
  | .eraseRows rows => (b.onQueue (Queue.eraseRows rows)).mapAnswer .count
  | .eraseRange first count => (b.onQueue (Queue.eraseRange first count)).mapAnswer .flag
  | .moveRange first count destination =>
    (b.onQueue (Queue.moveRange first count destination)).mapAnswer .flag
  | .moveSelection rows destination =>
    (b.onQueue (Queue.moveSelection rows destination)).mapAnswer .flag
  | .pauseOne tag paused => (b.pauseOne tag paused).mapAnswer .flag
  | .pauseSelection rows paused => (b.pauseSelection rows paused).mapAnswer fun _ => .done
  | .pauseAll paused => (b.pauseAll paused).mapAnswer fun _ => .done
  | .flipPause => b.flipPause.mapAnswer .flag
  | .adoptPreference => b.adoptPreference.mapAnswer .flag
  | .overwritePreference paused => (b.overwritePreference paused).mapAnswer fun _ => .done
  | .dismiss rows cancel clear =>
    (b.onQueue (Queue.dismiss rows cancel clear)).mapAnswer fun _ => .done
  | .cancelEverything => b.cancelEverything.mapAnswer fun _ => .done
  | .restart tag => (b.onQueue (Queue.restart tag)).mapAnswer .flag

/-- What a run does, action after action. -/
def run (b : Board) : List Action → Outcome Board (List Answer)
  | [] => ⟨b, [], [], []⟩
  | action :: actions =>
    let first := b.perform action
    ((first.state.run actions).after first).mapAnswer (first.answer :: ·)

end Board

end TransferQueue
