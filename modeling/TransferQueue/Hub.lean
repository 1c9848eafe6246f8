import TransferQueue.Board.Action
import TransferQueue.Mailbox

/-!
# The hub

A hub connects a board with the rest of the world: observers, each of which collects what it is
told until it asks, and the mailbox of the engine, if there is one.  Observers come and go; one
that has gone keeps its number, but is told nothing more.
-/

namespace TransferQueue

/-- A board with its observers and the mailbox of its engine. -/
structure Hub where
  /-- The board. -/
  board : Board
  /-- For each observer that has come, what it has been told since it last asked; nothing for one
  that has gone. -/
  observers : List (Option (List Change))
  /-- Where commands go. -/
  mailbox : Option Mailbox

namespace Hub

/-- A hub without observers. -/
def new (board : Board) (mailbox : Option Mailbox) : Hub := ⟨board, [], mailbox⟩

/-- What an action does to the hub: observers are told of the changes and the commands are
posted. -/
def perform (hub : Hub) (action : Action) : Outcome Hub Answer :=
  let o := hub.board.perform action
  o.mapState fun board =>
    { board
      observers := hub.observers.map fun told => told.map (· ++ o.changes)
      mailbox := hub.mailbox.map (Mailbox.postAll o.commands) }

/-- A new observer, and its number. -/
def join (hub : Hub) : Nat × Hub :=
  (hub.observers.length, { hub with observers := hub.observers ++ [some []] })

/-- What an observer has been told since it last asked, if it is there. -/
def collect (observer : Nat) (hub : Hub) : Option (List Change) × Hub :=
  match hub.observers[observer]? with
  | some (some told) => (some told, { hub with observers := hub.observers.set observer (some []) })
  | _ => (none, hub)

/-- Let an observer go, and answer whether it was there. -/
def leave (observer : Nat) (hub : Hub) : Bool × Hub :=
  match hub.observers[observer]? with
  | some (some _) => (true, { hub with observers := hub.observers.set observer none })
  | _ => (false, hub)

end Hub

end TransferQueue
