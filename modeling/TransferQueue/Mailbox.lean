import TransferQueue.Outcome

/-!
# The mailbox of the engine

Commands reach the engine through a mailbox that holds a limited number of them.  Nobody waits for
room: a command that finds the mailbox full is dropped.  Once the engine has gone, nothing can be
sent any more.
-/

namespace TransferQueue

/-- A bounded channel for commands. -/
structure Mailbox where
  /-- How many commands it can hold. -/
  capacity : Nat
  /-- The commands that wait, the oldest one first. -/
  waiting : List Command
  /-- Whether the engine still takes commands out. -/
  isOpen : Bool
deriving DecidableEq, Repr

namespace Mailbox

/-- An empty mailbox. -/
def ofCapacity (capacity : Nat) : Mailbox := ⟨capacity, [], true⟩

/-- Send a command.  That there is no room for it is no failure. -/
def send (command : Command) (m : Mailbox) : Except Failure Mailbox :=
  if m.isOpen then
    if m.waiting.length < m.capacity then
      .ok { m with waiting := m.waiting ++ [command] }
    else .ok m
  else .error .engineClosed

/-- Send a command, whether it arrives or not. -/
def post (command : Command) (m : Mailbox) : Mailbox := (m.send command).toOption.getD m

/-- Send commands one after the other, whether they arrive or not. -/
def postAll (commands : List Command) (m : Mailbox) : Mailbox :=
  commands.foldl (fun m command => m.post command) m

/-- Take out the oldest command. -/
def take (m : Mailbox) : Option Command × Mailbox :=
  match m.waiting with
  | [] => (none, m)
  | command :: rest => (some command, { m with waiting := rest })

/-- Take out all commands. -/
def takeAll (m : Mailbox) : List Command × Mailbox := (m.waiting, { m with waiting := [] })

/-- The mailbox after the engine has gone, with all that waited for it. -/
def close (m : Mailbox) : Mailbox := { m with waiting := [], isOpen := false }

/-- How many commands wait, while the engine is there. -/
def waitingCount? (m : Mailbox) : Option Nat := if m.isOpen then some m.waiting.length else none

end Mailbox

end TransferQueue
