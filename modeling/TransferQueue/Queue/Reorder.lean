import TransferQueue.Queue.Removal

/-!
# Moving rows by way of the engine

The order of the rows follows the priorities that the engine assigns.  To move rows, the engine is
asked to give their transfers other places; the rows move when its reports come in, so a move
changes nothing in the queue.

* `Queue.moveRange` moves a block of rows before a row;
* `Queue.moveSelection` moves scattered rows before a row.
-/

namespace TransferQueue

namespace Queue

/-- The commands that move the transfers `moving` before the row `destination` of a queue with the
transfers `tags`.  Transfers that are moved to the first place one after the other stand in the
opposite order afterwards. -/
def blockCommands (tags moving : List Tag) (destination : Nat) : List Command :=
  if destination = 0 then moving.reverse.map .putFirst
  else
    match tags[destination]? with
    | none => moving.map .putLast
    | some target => moving.map (.putBefore · target)

/-- The commands that move `count` rows from the row `first` on before the row `destination`.
There are none for an empty block, for rows or a destination beyond the end, and for a destination
within the block. -/
def commandsToMove? (q : Queue) (first count destination : Nat) : Option (List Command) :=
  if count = 0 ∨ q.size < first + count ∨ q.size < destination
      ∨ (first ≤ destination ∧ destination < first + count) then none
  else some (blockCommands q.tags ((q.tags.drop first).take count) destination)

/-- Ask the engine to move a block of rows. -/
def moveRange (first count destination : Nat) (q : Queue) : Outcome Queue Bool :=
  match q.commandsToMove? first count destination with
  | none => ⟨q, false, [], []⟩
  | some commands => ⟨q, true, [], commands⟩

/-- Rows have been dropped: ask the engine to move each of the selected rows, so that they keep
their order.  A row that is the destination itself stays. -/
def moveSelection (rows : List Nat) (destination : Nat) (q : Queue) : Outcome Queue Bool :=
  let selected := selection q.size rows
  let ordered := if destination = 0 then selected.reverse else selected
  let commands := (ordered.filterMap fun n => q.commandsToMove? n 1 destination).flatten
  ⟨q, !commands.isEmpty, [], commands⟩

end Queue

end TransferQueue
